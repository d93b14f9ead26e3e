import PiVision.Clients.PythonGui
import PiVision.Pipeline.MainProcess

/-!
# From the camera to the window

The process in C and the client in Python with its window: what `SERVER_send` sends while this
client is the one accepted last is there for its `recv`, and every step of either takes place at
any moment. Other clients may be accepted before it and behind it. What the process receives is
left open, as it is there: the numbers of the acks only decide whether an output is sent.
-/

namespace PiVision

open Machine Framing NormalizerState

namespace PythonStream

variable {payloads : List (List UInt8)} {s : PythonStream}

/-- More bytes have arrived. -/
def arrive (s : PythonStream) (bytes : List UInt8) : PythonStream :=
  { s with rest := s.rest ++ bytes }

theorem arrive_nil (s : PythonStream) : s.arrive [] = s := by
  rw [arrive, List.append_nil]

theorem arrive_append (s : PythonStream) (bytes more : List UInt8) :
    s.arrive (bytes ++ more) = (s.arrive bytes).arrive more := by
  rw [arrive, arrive, arrive, List.append_assoc]

/-- One more frame is written. -/
theorem Position.arrive {todo : List (List UInt8)} (position : Position s todo)
    (payload : List UInt8) :
    Position (s.arrive (encodeFrame 4 payload)) (todo ++ [payload]) := by
  have hframes (payloads : List (List UInt8)) :
      encodeFrames 4 (payloads ++ [payload]) =
        encodeFrames 4 payloads ++ encodeFrame 4 payload := by
    rw [encodeFrames_append, encodeFrames_cons, encodeFrames_nil, List.append_nil]
  cases position with
  | header point ahead =>
    refine .header point ?_
    rw [PythonStream.arrive, hframes, ← ahead, List.append_assoc]
  | image frames point size ahead =>
    subst frames
    refine .image rfl point size ?_
    show _ = _ ++ encodeFrames 4 (_ ++ [payload])
    rw [PythonStream.arrive, hframes, ← List.append_assoc, ahead, List.append_assoc]
  | ack point ahead =>
    refine .ack point ?_
    rw [PythonStream.arrive, hframes, ← ahead]

theorem Aligned.arrive (aligned : Aligned payloads s) (payload : List UInt8) :
    Aligned (payloads ++ [payload]) (s.arrive (encodeFrame 4 payload)) := by
  obtain ⟨done, todo, hframes, hstored, hposition⟩ := aligned.position
  refine ⟨aligned.wf, done, todo ++ [payload], ?_, hstored, hposition.arrive payload⟩
  rw [hframes, List.append_assoc]

theorem StoredSized.arrive (sized : s.StoredSized) (bytes : List UInt8) :
    (s.arrive bytes).StoredSized := ⟨sized.wf, sized.stored⟩

/-- With some of the bytes still missing `recv` returns no more than it could return with all of
them there. -/
theorem exists_step_arrive (s : PythonStream) (missing : List UInt8) (extra : ℕ) :
    s.step extra = s ∨
      ∃ extra', (s.step extra).arrive missing = (s.arrive missing).step extra' := by
  by_cases hack : s.client.point = .ack
  · refine .inr ⟨extra, ?_⟩
    have hack' : (s.arrive missing).client.point = .ack := hack
    rw [step_of_ack hack, step_of_ack hack']
    rfl
  by_cases hempty : s.rest = []
  · exact .inl (step_of_empty hack hempty extra)
  have hprefix : s.packet extra <+: s.rest := List.take_prefix _ _
  -- ready for just as many bytes, `recv` returns the same with all of them there
  have hasked : min s.client.missing ((s.packet extra).length - 1 + 1) =
      (s.packet extra).length := by
    have hlength : (s.packet extra).length =
        min (min s.client.missing (extra + 1)) s.rest.length := List.length_take
    have hpositive := List.length_pos_iff.mpr hempty
    omega
  have hpacket : (s.arrive missing).packet ((s.packet extra).length - 1) = s.packet extra := by
    show (s.rest ++ missing).take (min s.client.missing _) = _
    rw [hasked, List.take_append_of_le_length hprefix.length_le]
    exact (List.prefix_iff_eq_take.mp hprefix).symm
  refine .inr ⟨(s.packet extra).length - 1, ?_⟩
  have hack' : ¬(s.arrive missing).client.point = .ack := hack
  have hempty' : ¬(s.arrive missing).rest = [] :=
    fun h => hempty (List.append_eq_nil_iff.mp h).1
  rw [step, if_neg hack, if_neg hempty, step, if_neg hack', if_neg hempty', hpacket]
  have hrest : (s.arrive missing).rest.drop (s.packet extra).length =
      s.rest.drop (s.packet extra).length ++ missing :=
    List.drop_append_of_le_length hprefix.length_le
  rw [hrest]
  rfl

end PythonStream

namespace MainProcess

/-- A client of the image service is accepted in this step. -/
def accepts (s : MainProcess) : MainAction → Bool
  | .main input =>
    decide (s.algo.worker ≠ .crashed ∧ s.sending = false ∧ s.toExecute = .server) && input.waits
  | .worker => false

theorem connected_step (s : MainProcess) (action : MainAction) :
    (s.step action).connected = (s.connected || s.accepts action) := by
  by_cases hcrashed : s.algo.worker = .crashed
  · have hstep : s.step action = s := if_pos hcrashed
    cases action <;> simp [hstep, accepts, hcrashed]
  cases action with
  | worker => rw [step_worker, accepts, Bool.or_false]
  | main input =>
    have hstep : s.step (.main input) = if s.sending then s else s.mainRun input :=
      if_neg hcrashed
    rw [hstep, accepts]
    cases hsending : s.sending with
    | true => simp
    | false =>
      rw [if_neg Bool.false_ne_true, mainRun]
      cases hplace : s.toExecute with
      | server => simp [goOn, hcrashed]
      | client =>
        dsimp only
        unfold clientRun
        split <;> simp [goOn]
      | algoCtrl =>
        dsimp only
        split
        · simp [obtain, goOn]
        · unfold offer
          split
          · dsimp only
            split <;> simp
          · simp
      | diag | imageProvider | control | imageDataTL => simp [providerRun, goOn]

end MainProcess

/-- Whether the client has been accepted, and whether another one has been accepted since. -/
inductive ClientPlace
  | waiting
  | served
  | replaced
  deriving DecidableEq, Repr

/-- A client is accepted, this one or another one. What is sent goes to the last one. -/
def ClientPlace.accept : ClientPlace → Bool → ClientPlace
  | .waiting, ours => if ours then .served else .waiting
  | .served, _ | .replaced, _ => .replaced

/-- The process, and the client with its window. -/
structure CameraToWindow where
  main : MainProcess
  place : ClientPlace
  viewer : PythonViewer

/-- A step of the process, in which a client that is accepted is this one or not, a step of the
client or one of the window's thread. -/
inductive EitherAction
  | main (action : MainAction) (ours : Bool)
  | viewer (action : ViewerAction)

namespace CameraToWindow

/-- The process in front of its first callback, and the client that waits for its accept. -/
def start (images : List ColorImage) : CameraToWindow := ⟨.start images, .waiting, .start []⟩

/-- A step. What the process has sent in it is there behind it for the client that it serves. -/
def step (s : CameraToWindow) : EitherAction → CameraToWindow
  | .main action ours =>
    { main := s.main.step action
      place := if s.main.accepts action then s.place.accept ours else s.place
      viewer :=
        if s.place = .served then
          { s.viewer with
            stream := s.viewer.stream.arrive
              ((s.main.step action).stream.drop s.main.stream.length) }
        else s.viewer }
  | .viewer action => { s with viewer := s.viewer.step action }

/-- The conditions on a step of the process. The client and the window's thread are free. -/
def Meets (s : CameraToWindow) : EitherAction → Prop
  | .main action _ => s.main.Meets action
  | .viewer _ => True

/-- The outputs, each so many times. -/
def framesFor (counts : List ℕ) (outputs : List GrayscaleImage) : List (List UInt8) :=
  repeated counts (outputs.map List.Vector.toList)

/-- The client gets outputs, each so many times. It is at the boundaries of their frames when what
is missing of the last one has come: something is missing only while a call of `SERVER_send` does
not return. -/
def Gets (outputs : List GrayscaleImage) (sending : Bool) (stream : PythonStream) : Prop :=
  ∃ counts missing, counts.length = outputs.length ∧ (sending = false → missing = []) ∧
    PythonStream.Aligned (framesFor counts outputs) (stream.arrive missing)

/-- What holds of the client and its window. -/
structure Connected (s : CameraToWindow) : Prop where
  follows : s.viewer.Follows
  gets : Gets s.main.algo.outputs s.main.sending s.viewer.stream

/-! ## The frames -/

section Frames

variable {counts : List ℕ} {outputs : List GrayscaleImage} {output : GrayscaleImage}

theorem length_of_mem_framesFor {image : List UInt8} (mem : image ∈ framesFor counts outputs) :
    image.length = grayscaleImageSize := by
  obtain ⟨output, -, rfl⟩ := List.mem_map.mp (mem_of_mem_repeated mem)
  exact output.toList_length

/-- A new output has not been sent. -/
theorem framesFor_new (same : counts.length = outputs.length) (output : GrayscaleImage) :
    framesFor (counts ++ [0]) (outputs ++ [output]) = framesFor counts outputs := by
  have hsame : counts.length = (outputs.map List.Vector.toList).length := by
    rw [same, List.length_map]
  rw [framesFor, List.map_append, List.map_singleton]
  exact repeated_new hsame output.toList

/-- The last output is sent once more. -/
theorem exists_framesFor_again (same : counts.length = outputs.length)
    (last : outputs.getLast? = some output) :
    ∃ counts' : List ℕ, counts'.length = outputs.length ∧
      framesFor counts outputs ++ [output.toList] = framesFor counts' outputs := by
  have hsame : counts.length = (outputs.map List.Vector.toList).length := by
    rw [same, List.length_map]
  have hlast : (outputs.map List.Vector.toList).getLast? = some output.toList := by
    rw [List.getLast?_map, last, Option.map_some]
  obtain ⟨counts', hsame', hagain⟩ := exists_repeated_again hsame hlast
  exact ⟨counts', hsame'.trans (List.length_map _), hagain⟩

end Frames

section Steps

variable {s : CameraToWindow} {images : List ColorImage}

/-- A step of the client may be one on a stream with more bytes. -/
theorem connected_viewer (connected : s.Connected) (action : ViewerAction) :
    (s.step (.viewer action)).Connected := by
  obtain ⟨counts, missing, hsame, hwhole, haligned⟩ := connected.gets
  refine ⟨PythonViewer.follows_step s.viewer action connected.follows, counts, missing, hsame,
    hwhole, ?_⟩
  cases action with
  | gui => exact haligned
  | receive extra =>
    have hsize {payload : List UInt8} (mem : payload ∈ framesFor counts s.main.algo.outputs) :
        payload.length < 256 ^ 4 ∧ payload.length ≠ 1 := by
      rw [length_of_mem_framesFor mem]
      decide
    show PythonStream.Aligned _ ((s.viewer.stream.step extra).arrive missing)
    rcases s.viewer.stream.exists_step_arrive missing extra with hidle | ⟨extra', hstep⟩
    · rwa [hidle]
    · rw [hstep]
      exact PythonStream.aligned_step (fun _ mem => (hsize mem).1) (fun _ mem => (hsize mem).2) _
        extra' haligned

/-- Nothing is sent. -/
theorem viewer_of_quiet {action : MainAction}
    (quiet : (s.main.step action).stream = s.main.stream) (ours : Bool) :
    (s.step (.main action ours)).viewer = s.viewer := by
  show (if s.place = .served then _ else s.viewer) = s.viewer
  rw [quiet, List.drop_length, PythonStream.arrive_nil, ite_self]

/-- A step of the process sends the last output, or the start of it, or nothing. -/
theorem connected_main (inv : s.main.Inv images) (connected : s.Connected) (action : MainAction)
    (ours : Bool) (meets : s.main.Meets action) : (s.step (.main action ours)).Connected := by
  constructor
  · show PythonViewer.Follows (if s.place = .served then _ else s.viewer)
    split
    · exact ⟨connected.follows.sized.arrive _, connected.follows.last, connected.follows.shown,
        connected.follows.shows⟩
    · exact connected.follows
  obtain ⟨counts, missing, hsame, hwhole, haligned⟩ := connected.gets
  show Gets (s.main.step action).algo.outputs (s.main.step action).sending _
  rcases s.main.sent_step action inv meets with
    ⟨hstream, hsending, houtputs⟩ |
    ⟨hrunning, houtputs, -, output, bytes, hlast, hbegins, hstream, hsent⟩
  · rw [hsending, viewer_of_quiet hstream]
    rcases houtputs with houtputs | ⟨output, houtputs⟩ <;> rw [houtputs]
    · exact ⟨counts, missing, hsame, hwhole, haligned⟩
    · refine ⟨counts ++ [0], missing, ?_, hwhole, ?_⟩
      · rw [List.length_append, List.length_append, hsame]
        rfl
      · rwa [framesFor_new hsame]
  · rw [houtputs]
    rw [hwhole hrunning, PythonStream.arrive_nil] at haligned
    by_cases hserved : s.place = .served
    · obtain ⟨counts', hsame', hagain⟩ := exists_framesFor_again hsame hlast
      obtain ⟨missing', hframe⟩ := hbegins
      have hviewer : (s.step (.main action ours)).viewer.stream = s.viewer.stream.arrive bytes := by
        simp only [step, hserved, hstream, List.drop_left, if_true]
      refine ⟨counts', missing', hsame', fun h => ?_, ?_⟩
      · rw [hsent h] at hframe
        exact List.append_right_eq_self.mp hframe
      · rw [hviewer, ← hagain, ← PythonStream.arrive_append, hframe]
        exact haligned.arrive output.toList
    · -- the output goes to another client
      have hviewer : (s.step (.main action ours)).viewer = s.viewer := if_neg hserved
      rw [hviewer]
      exact ⟨counts, [], hsame, fun _ => rfl, by rwa [PythonStream.arrive_nil]⟩

/-- **One step** of any of them. -/
theorem inv_step (s : CameraToWindow) (action : EitherAction)
    (inv : s.main.Inv images ∧ s.Connected) (meets : s.Meets action) :
    (s.step action).main.Inv images ∧ (s.step action).Connected := by
  cases action with
  | main action ours =>
    exact ⟨MainProcess.inv_step s.main action inv.1 meets,
      connected_main inv.1 inv.2 action ours meets⟩
  | viewer action => exact ⟨inv.1, connected_viewer inv.2 action⟩

end Steps

/-! ## A run with one image -/

section OneImage

open MainProcess (calm pass)

variable {m : MainProcess} {images : List ColorImage}

/-- The client, in front of all that the process has sent. It is the only one. -/
def inFront (m : MainProcess) : CameraToWindow :=
  ⟨m, if m.connected then .served else .waiting, ⟨⟨.init, m.stream, []⟩, .init⟩⟩

/-- No client is accepted behind the first one. -/
def OnlyClient (m : MainProcess) (action : MainAction) : Prop :=
  m.connected = true → m.accepts action = false

/-- Where nobody waits nobody is accepted. -/
theorem along_onlyClient {actions : List MainAction}
    (quiet : ∀ action ∈ actions, action = .main (calm false) ∨ action = .worker)
    (m : MainProcess) : Along MainProcess.step OnlyClient m actions := by
  refine along_of_forall_mem (fun m action hquiet _ => ?_) m quiet
  rcases hquiet with rfl | rfl
  · exact Bool.and_false _
  · rfl

theorem along_onlyClient_oneImage (images : List ColorImage) :
    Along MainProcess.step OnlyClient (.start images) MainProcess.oneImage := by
  have hfirst : ((MainProcess.start images).step (.main (calm false))).connected = false := by
    rw [MainProcess.connected_step]
    rfl
  have hrest : MainProcess.oneImage = .main (calm false) :: .main (calm true) ::
      (.replicate 6 (.main (calm false)) ++ pass false ++ pass false ++ (pass false ++ pass false ++
        (pass false ++ (.replicate (colorImageSize + 3) .worker ++
          .replicate 3 (.main (calm false)))))) := rfl
  rw [hrest, along_cons, along_cons]
  refine ⟨fun h => absurd h Bool.false_ne_true, fun h => ?_,
    along_onlyClient (fun action hmem => ?_) _⟩
  · rw [hfirst] at h
    cases h
  · simp only [MainProcess.pass, List.mem_append, List.mem_cons, List.mem_replicate] at hmem
    tauto

theorem step_inFront (inv : m.Inv images) (action : MainAction) (meets : m.Meets action)
    (only : OnlyClient m action) :
    (inFront m).step (.main action true) = inFront (m.step action) := by
  have hconnected := m.connected_step action
  have hsent := m.sent_step action inv meets
  cases h : m.connected with
  | true =>
    have hnobody : m.accepts action = false := only h
    have hprefix : m.stream <+: (m.step action).stream := by
      rcases hsent with ⟨hsame, -⟩ | ⟨-, -, -, -, bytes, -, -, hmore, -⟩
      · rw [hsame]
      · rw [hmore]
        exact List.prefix_append _ bytes
    have hstream : m.stream ++ (m.step action).stream.drop m.stream.length =
        (m.step action).stream := (List.prefix_append_drop hprefix).symm
    rw [h, Bool.true_or] at hconnected
    simp only [step, inFront, h, hnobody, hconnected, PythonStream.arrive, hstream, if_true,
      Bool.false_eq_true, if_false]
  | false =>
    have hstream : (m.step action).stream = m.stream := by
      rcases hsent with ⟨hsame, -⟩ | ⟨-, -, hserved, -⟩
      · exact hsame
      · rw [h] at hserved
        cases hserved
    rw [h, Bool.false_or] at hconnected
    cases haccepts : m.accepts action <;> rw [haccepts] at hconnected <;>
      simp [step, inFront, h, haccepts, hconnected, hstream, ClientPlace.accept]

theorem run_inFront (inv : m.Inv images) {actions : List MainAction}
    (meets : Along MainProcess.step MainProcess.Meets m actions)
    (only : Along MainProcess.step OnlyClient m actions) :
    Along step Meets (inFront m) (actions.map fun action => .main action true) ∧
      run step (inFront m) (actions.map fun action => .main action true) =
        inFront (run MainProcess.step m actions) := by
  induction actions generalizing m with
  | nil => exact ⟨trivial, rfl⟩
  | cons action actions ih =>
    obtain ⟨hmeets, hrun⟩ := ih (MainProcess.inv_step m action inv meets.1) meets.2 only.2
    rw [← step_inFront inv action meets.1 only.1] at hmeets hrun
    exact ⟨⟨meets.1, hmeets⟩, hrun⟩

/-- The image is sent, received and shown. -/
def oneImage : List EitherAction :=
  (MainProcess.oneImage.map fun action => .main action true) ++
    [.viewer (.receive 3), .viewer (.receive (grayscaleImageSize - 1)), .viewer .gui]

theorem run_oneImage {image : ColorImage} {after : NormalizerState}
    (completes : NormalizerState.init.exec image = some after) :
    Along step Meets (start [image, image]) oneImage ∧
      (run step (start [image, image]) oneImage).viewer.gui.shown =
        [after.normalizedImage.toList] := by
  obtain ⟨hmeets, hstream⟩ := MainProcess.run_oneImage completes
  obtain ⟨hmeets', hrun⟩ := run_inFront (MainProcess.inv_start _) hmeets
    (along_onlyClient_oneImage _)
  have hstart : start [image, image] = inFront (.start [image, image]) := rfl
  have hlength : after.normalizedImage.toList.length = grayscaleImageSize :=
    after.normalizedImage.toList_length
  have hshown := PythonViewer.shown_frame (by rw [hlength]; decide) (by rw [hlength]; decide)
  rw [hstart, oneImage]
  constructor
  · exact (along_append ..).mpr ⟨hmeets', trivial, trivial, trivial, trivial⟩
  · rw [hlength] at hshown
    rw [run_append, hrun, ← hshown]
    simp only [run_cons, run_nil, step, inFront, hstream]
    rfl

end OneImage

end CameraToWindow

end PiVision
