import PiVision.Clients.PythonStream
import PiVision.Lib.Raster
import PiVision.Lib.Repetition
import Mathlib.Data.List.TakeWhile

/-!
# The window of the Python client

A thread of its own asks the client again and again for the data that it has stored last, and
draws them: pixel by pixel on a surface, and then the surface on the window. It may miss an
image and draw another one twice. An image of more bytes than the window has pixels raises an
`IndexError`, and one of another type an `AttributeError`, behind which the thread is gone.

Printing and the time that it takes are left out, and so is the end of the program.
-/

namespace PiVision

open Machine

/-- `COLOR_IMAGE_TYPE`. -/
def colorImageType : UInt8 := 1

/-- `IMAGE_RESOLUTION`. -/
def imageResolution : ℕ × ℕ := (640, 480)

/-- The number of pixels, `GRAYSCALE_IMAGE_BYTE_SIZE`. -/
def grayscaleImageByteSize : ℕ := imageResolution.1 * imageResolution.2

/-- The indices that a `PixelArray` of the surface has. -/
def OnSurface (p : Point) : Prop := p.x < imageResolution.1 ∧ p.y < imageResolution.2

instance (p : Point) : Decidable (OnSurface p) := inferInstanceAs (Decidable (_ ∧ _))

/-- `PiVisGui` of the Python client: the gray levels on its surface and on the window, whether
its thread is running, and the images for which `showGrayScaleImage` has been called. -/
structure PiVisGui where
  surface : Picture UInt8
  window : Picture UInt8
  running : Bool
  shown : List (List UInt8)

namespace PiVisGui

/-- The window before the first image. -/
def init : PiVisGui := ⟨fun _ => 0, fun _ => 0, true, []⟩

/-- The loop of `showGrayScaleImage`: the surface behind it, and whether it has come to its end
without an `IndexError`. -/
def drawBytes : Picture UInt8 → Point → List UInt8 → Picture UInt8 × Bool
  | surface, _, [] => (surface, true)
  | surface, p, byte :: bytes =>
    if OnSurface p then
      drawBytes (Function.update surface p byte) (Raster.next imageResolution.1 p) bytes
    else (surface, false)

/-- `showGrayScaleImage`. -/
def showGrayScaleImage (s : PiVisGui) (image : List UInt8) : PiVisGui :=
  let (surface, done) := drawBytes s.surface ⟨0, 0⟩ image
  { surface := surface
    window := if done then surface else s.window
    running := done
    shown := s.shown ++ [image] }

/-- `run`, with what the client's `getData` returns. -/
def run (s : PiVisGui) (data : List UInt8) : PiVisGui :=
  if s.running then
    match data with
    | imageType :: byte :: bytes =>
      if imageType = grayScaleImageType then s.showGrayScaleImage (byte :: bytes)
      -- `showImage` does not exist
      else if imageType = colorImageType then { s with running := false }
      else s
    | _ => s
  else s

/-! ## The loop -/

section Loop

variable {i : ℕ} {bytes : List UInt8}

theorem onSurface_pointAt : OnSurface (Raster.pointAt imageResolution.1 i) ↔
    i < grayscaleImageByteSize := by
  have hx : (Raster.pointAt imageResolution.1 i).x < imageResolution.1 :=
    Raster.x_pointAt_lt (by decide) i
  have hy : (Raster.pointAt imageResolution.1 i).y < imageResolution.2 ↔
      i < imageResolution.2 * imageResolution.1 := Nat.div_lt_iff_lt_mul (by decide)
  rw [OnSurface, hy, grayscaleImageByteSize, Nat.mul_comm imageResolution.1]
  exact ⟨And.right, fun hi => ⟨hx, hi⟩⟩

/-- An image that the window has room for. -/
theorem drawBytes_of_fits (surface : Picture UInt8)
    (fits : i + bytes.length ≤ grayscaleImageByteSize) :
    drawBytes surface (Raster.pointAt imageResolution.1 i) bytes =
      (Raster.draw surface
        (Raster.scan imageResolution.1 (Raster.pointAt imageResolution.1 i) bytes), true) := by
  induction bytes generalizing surface i with
  | nil => rfl
  | cons byte bytes ih =>
    rw [List.length_cons] at fits
    have hinside : i < grayscaleImageByteSize := by omega
    have hrest : i + 1 + bytes.length ≤ grayscaleImageByteSize := by omega
    rw [drawBytes, if_pos (onSurface_pointAt.mpr hinside), Raster.next_pointAt (by decide),
      ih _ hrest, Raster.scan_cons_pointAt (by decide), Raster.draw_cons]

/-- An image that it has no room for. -/
theorem drawBytes_of_long (surface : Picture UInt8)
    (long : grayscaleImageByteSize < i + bytes.length) (inside : i ≤ grayscaleImageByteSize) :
    (drawBytes surface (Raster.pointAt imageResolution.1 i) bytes).2 = false := by
  induction bytes generalizing surface i with
  | nil => exact absurd long (Nat.not_lt.mpr inside)
  | cons byte bytes ih =>
    rw [List.length_cons] at long
    rw [drawBytes]
    split
    · rename_i hpoint
      have hinside : i < grayscaleImageByteSize := onSurface_pointAt.mp hpoint
      rw [Raster.next_pointAt (by decide)]
      exact ih _ (by omega) hinside
    · rfl

end Loop

/-- An image that the window has room for. -/
def Fits (image : List UInt8) : Prop := image.length ≤ grayscaleImageByteSize

instance (image : List UInt8) : Decidable (Fits image) := inferInstanceAs (Decidable (_ ≤ _))

/-- What images leave behind that are drawn one over the other on black: at each point the
byte of the last image that reaches as far. -/
def layers (images : List (List UInt8)) (p : Point) : UInt8 :=
  (images.reverse.findSome? fun image => image[Raster.indexAt imageResolution.1 p]?).getD 0

section Show

variable {s : PiVisGui} {image : List UInt8}

theorem showGrayScaleImage_of_fits (s : PiVisGui) (fits : Fits image) :
    s.showGrayScaleImage image =
      { surface := Raster.draw s.surface (Raster.scan imageResolution.1 ⟨0, 0⟩ image)
        window := Raster.draw s.surface (Raster.scan imageResolution.1 ⟨0, 0⟩ image)
        running := true
        shown := s.shown ++ [image] } := by
  have hdrawn := drawBytes_of_fits (i := 0) s.surface (by rwa [Nat.zero_add])
  rw [Raster.pointAt_zero] at hdrawn
  rw [showGrayScaleImage, hdrawn]
  rfl

theorem showGrayScaleImage_of_long (s : PiVisGui) (long : ¬Fits image) :
    (s.showGrayScaleImage image).running = false ∧
      (s.showGrayScaleImage image).window = s.window ∧
      (s.showGrayScaleImage image).shown = s.shown ++ [image] := by
  have hlong : grayscaleImageByteSize < 0 + image.length := by
    rw [Nat.zero_add]
    exact Nat.not_le.mp long
  have hdrawn := drawBytes_of_long s.surface hlong (Nat.zero_le _)
  rw [Raster.pointAt_zero] at hdrawn
  simp [showGrayScaleImage, hdrawn]

/-- One more image is drawn over the others. -/
theorem layers_concat {p : Point} (on : OnSurface p) {picture : Picture UInt8}
    {images : List (List UInt8)} (before : picture p = layers images p) (image : List UInt8) :
    Raster.draw picture (Raster.scan imageResolution.1 ⟨0, 0⟩ image) p =
      layers (images ++ [image]) p := by
  rw [Raster.draw_scan (by decide), if_pos on.1, before, layers, layers, List.reverse_concat,
    List.findSome?_cons]
  cases image[Raster.indexAt imageResolution.1 p]? <;> rfl

end Show

/-- What has been shown: the thread is running as long as every image has had room, and what is
on the window are the images up to the first one that has not. -/
structure Shows (s : PiVisGui) : Prop where
  running : s.running = true ↔ ∀ image ∈ s.shown, Fits image
  surface : s.running = true → s.surface = s.window
  window : ∀ p, OnSurface p → s.window p = layers (s.shown.takeWhile fun image => Fits image) p

section Shows

variable {s : PiVisGui}

/-- Images that all have room. -/
theorem takeWhile_of_fits {images : List (List UInt8)} (all : ∀ image ∈ images, Fits image) :
    (images.takeWhile fun image => Fits image) = images :=
  List.takeWhile_eq_self_iff.mpr fun image hmem => decide_eq_true (all image hmem)

theorem Shows.showGrayScaleImage (shows_ : s.Shows) (running : s.running = true)
    (image : List UInt8) : (s.showGrayScaleImage image).Shows := by
  have hall := shows_.running.mp running
  by_cases hfits : Fits image
  · have hnew : ∀ image' ∈ s.shown ++ [image], Fits image' := fun image' hmem => by
      rcases List.mem_append.mp hmem with hbefore | hlast
      · exact hall image' hbefore
      · rwa [List.mem_singleton.mp hlast]
    rw [showGrayScaleImage_of_fits s hfits]
    refine ⟨⟨fun _ => hnew, fun _ => rfl⟩, fun _ => rfl, fun p on => ?_⟩
    have hwindow := shows_.window p on
    rw [← shows_.surface running, takeWhile_of_fits hall] at hwindow
    rw [takeWhile_of_fits hnew]
    exact layers_concat on hwindow image
  · obtain ⟨hrunning, hwindow, hshown⟩ := showGrayScaleImage_of_long s hfits
    refine ⟨⟨fun h => ?_, fun h => ?_⟩, fun h => ?_, fun p on => ?_⟩
    · rw [hrunning] at h
      cases h
    · rw [hshown] at h
      exact absurd (h image (List.mem_append_right _ (List.mem_singleton_self image))) hfits
    · rw [hrunning] at h
      cases h
    · rw [hwindow, hshown, shows_.window p on, List.takeWhile_append_of_pos
        fun image' hmem => decide_eq_true (hall image' hmem), takeWhile_of_fits hall]
      rw [List.takeWhile_cons_of_neg (by simpa using hfits), List.append_nil]

theorem run_of_stopped (stopped : s.running = false) (data : List UInt8) : s.run data = s := by
  have hstopped : ¬s.running = true := by simp [stopped]
  exact if_neg hstopped

theorem run_nil (s : PiVisGui) : s.run [] = s := ite_self s

/-- What the client has stored is of one type, and none of it is too short to be shown. -/
theorem run_of_stored (running : s.running = true) {image : List UInt8}
    (sized : PythonClient.ReadsImage image.length) :
    s.run (grayScaleImageType :: image) = s.showGrayScaleImage image := by
  cases image with
  | nil => exact absurd rfl sized.1
  | cons byte bytes => rw [run, if_pos running]; exact if_pos rfl

end Shows

end PiVisGui

/-- The client on its stream, and its window. -/
structure PythonViewer where
  stream : PythonStream
  gui : PiVisGui

/-- A step of the client, or a round of the window's thread. -/
inductive ViewerAction
  | receive (extra : ℕ)
  | gui
  deriving DecidableEq, Repr

namespace PythonViewer

/-- The client connected, and the frames that the server writes. -/
def start (payloads : List (List UInt8)) : PythonViewer := ⟨.start payloads, .init⟩

/-- A step. -/
def step (v : PythonViewer) : ViewerAction → PythonViewer
  | .receive extra => { v with stream := v.stream.step extra }
  | .gui => { v with gui := v.gui.run v.stream.client.data }

/-- The data are what has been stored last. -/
def HasLast (s : PythonStream) : Prop :=
  (s.stored = [] ∧ s.client.data = []) ∨
    ∃ image, s.stored.getLast? = some image ∧ s.client.data = grayScaleImageType :: image

/-- What is shown is what has been stored, each image any number of times. -/
structure Follows (v : PythonViewer) : Prop where
  sized : v.stream.StoredSized
  last : HasLast v.stream
  shown : ∃ counts : List ℕ, counts.length = v.stream.stored.length ∧
    v.gui.shown = repeated counts v.stream.stored
  shows : v.gui.Shows

section Steps

variable {v : PythonViewer} {s : PythonStream}

/-- A step of the client stores nothing and keeps its data, or stores an image. -/
theorem stored_step (wf : s.client.WellFormed) (extra : ℕ) :
    ((s.step extra).stored = s.stored ∧ (s.step extra).client.data = s.client.data) ∨
      ∃ image, (s.step extra).stored = s.stored ++ [image] ∧
        (s.step extra).client.data = grayScaleImageType :: image := by
  by_cases hack : s.client.point = .ack
  · rw [PythonStream.step_of_ack hack]
    exact .inl ⟨rfl, rfl⟩
  by_cases hempty : s.rest = []
  · rw [PythonStream.step_of_empty hack hempty]
    exact .inl ⟨rfl, rfl⟩
  cases hpoint : s.client.point with
  | ack => exact absurd hpoint hack
  | header =>
    rw [PythonStream.step_of_header hpoint hempty, PythonStream.receive_of_header hpoint]
    exact .inl ⟨rfl, rfl⟩
  | image =>
    have hbound := s.length_packet_le extra
    obtain ⟨-, -, hshort⟩ := wf.at_image hpoint
    simp only [PythonClient.missing, hpoint] at hbound
    rw [PythonStream.step_of_image hpoint hempty]
    by_cases hmore : (s.client.receiveBuf ++ s.packet extra).length < s.client.imageSize
    · rw [PythonStream.receive_of_part hpoint hmore, if_neg (by simp [hpoint])]
      exact .inl ⟨rfl, rfl⟩
    · have hwhole := Framing.length_append_of_missing (Nat.le_of_lt hshort) hbound hmore
      rw [PythonStream.receive_of_whole hpoint hwhole, if_pos rfl]
      exact .inr ⟨_, rfl, rfl⟩

theorem follows_receive (follows : v.Follows) (extra : ℕ) :
    (v.step (.receive extra)).Follows := by
  obtain ⟨counts, hsame, hshown⟩ := follows.shown
  have hsized := PythonStream.storedSized_step v.stream extra follows.sized
  rcases stored_step follows.sized.wf extra with ⟨hstored, hdata⟩ | ⟨image, hstored, hdata⟩
  · refine ⟨hsized, ?_, ⟨counts, ?_, ?_⟩, follows.shows⟩
    · show HasLast (v.stream.step extra)
      rw [HasLast, hstored, hdata]
      exact follows.last
    · exact hsame.trans (congrArg List.length hstored).symm
    · exact hshown.trans (congrArg (repeated counts) hstored).symm
  · refine ⟨hsized, .inr ⟨image, ?_, hdata⟩, ⟨counts ++ [0], ?_, ?_⟩, follows.shows⟩
    · show (v.stream.step extra).stored.getLast? = some image
      rw [hstored, List.getLast?_concat]
    · show _ = (v.stream.step extra).stored.length
      rw [hstored, List.length_append, List.length_append, hsame, List.length_singleton,
        List.length_singleton]
    · show v.gui.shown = repeated _ (v.stream.step extra).stored
      rw [hstored, repeated_new hsame, hshown]

theorem follows_gui (follows : v.Follows) : (v.step .gui).Follows := by
  cases hrunning : v.gui.running with
  | false =>
    have hstep : v.step .gui = v := by
      rw [step, PiVisGui.run_of_stopped hrunning]
    rwa [hstep]
  | true =>
    rcases follows.last with ⟨-, hdata⟩ | ⟨image, hlast, hdata⟩
    · have hstep : v.step .gui = v := by
        rw [step, hdata, PiVisGui.run_nil]
      rwa [hstep]
    · have hsized := follows.sized.stored image (List.mem_of_getLast? hlast)
      obtain ⟨counts, hsame, hshown⟩ := follows.shown
      obtain ⟨counts', hsame', hagain⟩ := exists_repeated_again hsame hlast
      rw [step, hdata, PiVisGui.run_of_stored hrunning hsized]
      refine ⟨follows.sized, follows.last, ⟨counts', hsame', ?_⟩,
        follows.shows.showGrayScaleImage hrunning image⟩
      rw [← hagain, ← hshown]
      rfl

/-- **One step** of the client or of the window's thread. -/
theorem follows_step (v : PythonViewer) (action : ViewerAction) (follows : v.Follows) :
    (v.step action).Follows := by
  cases action with
  | receive extra => exact follows_receive follows extra
  | gui => exact follows_gui follows

theorem aligned_step {payloads : List (List UInt8)} (fits : ∀ p ∈ payloads, p.length < 256 ^ 4)
    (not_one : ∀ p ∈ payloads, p.length ≠ 1) (v : PythonViewer) (action : ViewerAction)
    (aligned : PythonStream.Aligned payloads v.stream) :
    PythonStream.Aligned payloads (v.step action).stream := by
  cases action with
  | receive extra => exact PythonStream.aligned_step fits not_one v.stream extra aligned
  | gui => exact aligned

/-- An image that is received in two pieces, and shown. -/
theorem shown_frame {payload : List UInt8} (fits : payload.length < 256 ^ 4)
    (reads : PythonClient.ReadsImage payload.length) :
    (run step ⟨⟨.init, Framing.encodeFrame 4 payload, []⟩, .init⟩
      [.receive 3, .receive (payload.length - 1), .gui]).gui.shown = [payload] := by
  have hpositive : 0 < payload.length := Nat.pos_of_ne_zero fun h => reads.1 h.symm
  generalize hheader : LittleEndian.leBytes 4 payload.length = header
  have hlength : header.length = 4 := by rw [← hheader, LittleEndian.length_leBytes]
  have hvalue : LittleEndian.leValue header = payload.length := by
    rw [← hheader, LittleEndian.leValue_leBytes 4 _ fits]
  -- four bytes are the header, and the rest is the image
  have hfirst : PythonStream.step ⟨.init, header ++ payload, []⟩ 3 =
      ⟨⟨0, [], .image, header, []⟩, payload, []⟩ := by
    have hpacket : PythonStream.packet ⟨.init, header ++ payload, []⟩ 3 = header :=
      List.take_left' hlength
    have hleft : header ++ payload ≠ [] := List.append_ne_nil_of_left_ne_nil
      (List.ne_nil_of_length_pos (by rw [hlength]; decide)) _
    rw [PythonStream.step_of_header rfl hleft, PythonStream.receive_of_header rfl, hpacket]
    have hwhole : ¬(PythonClient.init.header ++ header).length < PythonClient.headerSize := by
      show ¬header.length < 4
      omega
    have hreads : PythonClient.ReadsImage
        (LittleEndian.leValue (PythonClient.init.header ++ header)) := by
      show PythonClient.ReadsImage (LittleEndian.leValue header)
      rwa [hvalue]
    rw [if_neg hwhole, if_pos hreads, List.drop_left' rfl]
    rfl
  have hsecond : PythonStream.step ⟨⟨0, [], .image, header, []⟩, payload, []⟩
      (payload.length - 1) =
        ⟨⟨0, grayScaleImageType :: payload, .ack, header, payload⟩, [], [payload]⟩ := by
    have hpacket : PythonStream.packet ⟨⟨0, [], .image, header, []⟩, payload, []⟩
        (payload.length - 1) = payload := by
      have hasked : min (PythonClient.missing ⟨0, [], .image, header, []⟩)
          (payload.length - 1 + 1) = payload.length := by
        show min (LittleEndian.leValue header - 0) _ = _
        rw [hvalue]
        omega
      rw [PythonStream.packet, hasked, List.take_length]
    rw [PythonStream.step_of_image rfl (List.ne_nil_of_length_pos hpositive),
      PythonStream.receive_of_whole rfl (by rw [hpacket]; exact hvalue.symm), hpacket, if_pos rfl,
      List.drop_length]
    rfl
  rw [Framing.encodeFrame, hheader]
  simp only [run_cons, run_nil, step, hfirst, hsecond]
  rw [PiVisGui.run_of_stored rfl reads]
  rfl

end Steps

end PythonViewer

end PiVision
