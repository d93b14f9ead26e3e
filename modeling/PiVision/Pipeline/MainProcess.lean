import PiVision.Camera.Reassembly
import PiVision.Lib.Repetition
import PiVision.Pipeline.Registration
import PiVision.Pipeline.Sequential
import PiVision.Server.ClientGone

/-!
# The process from the camera to the image service

The modules that an image passes through, in one process: the client collects it from the
camera's stream, the image provider copies it, algorithm control schedules it, a worker
normalizes it, and the data transport sends what has come out. The thread of `main` goes from
callback to callback, in the order of their registration, and the worker takes a step at any
moment.

Control has no client to hear from, and diagnostics sends on a connection of its own, so their
callbacks leave all of this alone. While a call of `SERVER_send` does not return no callback is
called; the worker goes on.
-/

namespace PiVision

open Machine NormalizerState

/-- The statics of the modules, the bytes that the camera has written and `recv` has not
handed out, the bytes that `SERVER_send` has given to the image service's clients, one client
after the other, and where the thread of `main` is: the entry whose callback comes next, or goes
on behind the first test of algorithm control, or is in a call of `SERVER_send` that does not
return. -/
structure MainProcess where
  client : ClientState
  wire : List UInt8
  algo : AlgoProcess
  dataTL : DataTL
  connected : Bool
  stream : List UInt8
  toExecute : FuncEntry
  midway : Bool
  sending : Bool

/-- What the environment does in a step of the thread of `main`: what it answers to the
client, whether a client of the image service waits, what the data transport receives, and what
`send` answers to it. -/
structure MainInput where
  client : CameraLink.Input
  waits : Bool
  received : Option (List UInt8)
  answers : List (Option ℕ)

/-- A step of the thread of `main`, or of the worker. -/
inductive MainAction
  | main (input : MainInput)
  | worker

namespace MainProcess

/-- The process in front of its first callback, and a connection on which the camera writes the
images. -/
def start (images : List ColorImage) : MainProcess where
  client := .init 0 (-1)
  wire := PiVisCamera.stream images
  algo := .start
  dataTL := .init
  connected := false
  stream := []
  toExecute := .client
  midway := false
  sending := false

/-- The callback returns. -/
def goOn (s : MainProcess) : MainProcess :=
  { s with toExecute := s.toExecute.following, midway := false }

/-- The client's callback. Connected to an empty wire, it is blocked in `recv`. -/
def clientRun (s : MainProcess) (input : CameraLink.Input) : MainProcess :=
  if s.client.currState = 3 ∧ s.wire = [] then s
  else
    goOn { s with
      client := s.client.run (input.toRound (s.wire.take (input.extra + 1))).client
      wire := s.wire.drop (min (CameraLink.requested s.client) (input.extra + 1)) }

/-- The first test of algorithm control: a result is handed to the data transport. -/
def offer (s : MainProcess) (answers : List (Option ℕ)) : MainProcess :=
  if s.algo.algoCtrl.algoState = .complete then
    let buf := s.algo.normalizer.normalizedImage.toList
    let stream := s.stream ++ s.dataTL.sentGrayscaleImage s.connected buf answers
    match s.dataTL.sendGrayscaleImageTo s.connected buf answers with
    | some dataTL => { s with dataTL := dataTL, stream := stream, midway := true }
    | none => { s with stream := stream, sending := true }
  else { s with midway := true }

/-- The rest of its callback. -/
def obtain (s : MainProcess) : MainProcess := goOn { s with algo := s.algo.algoCtrlRun }

/-- The callback of the image provider. -/
def providerRun (s : MainProcess) : MainProcess :=
  let (provider, client) := s.algo.provider.run s.client
  goOn { s with algo := { s.algo with provider := provider }, client := client }

/-- The callback that comes next. -/
def mainRun (s : MainProcess) (input : MainInput) : MainProcess :=
  match s.toExecute with
  | .client => s.clientRun input.client
  | .server => goOn { s with connected := s.connected || input.waits }
  | .algoCtrl => if s.midway then s.obtain else s.offer input.answers
  | .imageProvider => s.providerRun
  | .imageDataTL => goOn { s with dataTL := s.dataTL.run input.received }
  | .diag | .control => s.goOn

/-- A step. A crash of the worker ends the process. -/
def step (s : MainProcess) (action : MainAction) : MainProcess :=
  if s.algo.worker = .crashed then s
  else
    match action with
    | .main input => if s.sending then s else s.mainRun input
    | .worker => { s with algo := s.algo.workerRun }

/-! ## The law -/

/-- What is sent for the outputs, if each of them is sent so many times. -/
def sentFor (counts : List ℕ) (outputs : List GrayscaleImage) : List UInt8 :=
  (List.zipWith List.replicate counts outputs).flatten.flatMap fun output =>
    DataTL.bufToSend output.toList

/-- What has been sent are the outputs, each so many times, and in their order, up to the end of
the stream: a call of `SERVER_send` that has not returned has sent the start of its frame. -/
def Sent (s : MainProcess) (outputs : List GrayscaleImage) : Prop :=
  ∃ counts : List ℕ, counts.length = outputs.length ∧ s.stream <+: sentFor counts outputs ∧
    (s.sending = false → s.stream = sentFor counts outputs)

/-- What has been sent is what comes out of a process that executes the jobs one after the
other, on some of the camera's images in their order. -/
def Faithful (images : List ColorImage) (s : MainProcess) : Prop :=
  ∃ frames last outputs, frames.Sublist images ∧
    NormalizerState.execAll frames = some (last, outputs) ∧ s.Sent outputs

/-- A call of the header phase is given at most what is missing of the header. -/
def HeaderFits (s : MainProcess) : MainAction → Prop
  | .main input => s.toExecute = .client → s.client.currState = 3 →
    s.client.headerIndex < cameraBufHeaderSize →
      s.client.headerIndex +
        (s.wire.take (min cameraBufHeaderSize (input.client.extra + 1))).length ≤
          cameraBufHeaderSize
  | .worker => True

/-- A frame that is obtained while the algorithm is running is the one it is running on. -/
def FrameRepeats (s : MainProcess) : MainAction → Prop
  | .main _ => s.toExecute = .algoCtrl → s.midway = true → s.algo.FrameRepeats .algoCtrl
  | .worker => True

/-- What `send` accepts of an output, call by call, goes on as its frame does. -/
def SendContinues (s : MainProcess) : MainAction → Prop
  | .main input => s.toExecute = .algoCtrl → s.midway = false →
    s.algo.algoCtrl.algoState = .complete → s.dataTL.state = .sendData → s.connected = true →
      Server.Continues (DataTL.bufToSend s.algo.normalizer.normalizedImage.toList) 0 input.answers
  | .worker => True

/-- The conditions on a step. -/
structure Meets (s : MainProcess) (action : MainAction) : Prop where
  fits : s.HeaderFits action
  repeats : s.FrameRepeats action
  continues : s.SendContinues action

/-! ## The outputs that are sent -/

section Sent

variable {counts : List ℕ} {outputs : List GrayscaleImage}

/-- A new output has not been sent. -/
theorem sentFor_new (same : counts.length = outputs.length) (output : GrayscaleImage) :
    sentFor (counts ++ [0]) (outputs ++ [output]) = sentFor counts outputs :=
  congrArg (List.flatMap _) (repeated_new same output)

/-- The last output is sent once more. -/
theorem exists_sentFor_again (same : counts.length = outputs.length) {output : GrayscaleImage}
    (last : outputs.getLast? = some output) :
    ∃ counts' : List ℕ, counts'.length = outputs.length ∧
      sentFor counts outputs ++ DataTL.bufToSend output.toList = sentFor counts' outputs := by
  obtain ⟨counts', hsame, hagain⟩ := exists_repeated_again same last
  refine ⟨counts', hsame, ?_⟩
  have hsent := congrArg (List.flatMap fun output => DataTL.bufToSend output.toList) hagain
  rwa [List.flatMap_append, List.flatMap_singleton] at hsent

end Sent

/-! ## The camera's side -/

/-- What the client's link has to do with. -/
structure CameraView where
  client : ClientState
  wire : List UInt8
  provider : ImageProviderState
  frames : List ColorImage

def cameraView (s : MainProcess) : CameraView := ⟨s.client, s.wire, s.algo.provider, s.algo.frames⟩

namespace CameraView

/-- The frames that have been scheduled are some of those obtained, in their order. -/
def HasFrames (v : CameraView) (obtained : List (Option (List UInt8))) : Prop :=
  (v.frames.map List.Vector.toList).Sublist (obtained.filterMap id)

/-- Between two rounds of the client's link. -/
structure Between (v : CameraView) (link : CameraLink) : Prop where
  client : v.client = link.process.client
  wire : v.wire = link.wire
  provider : v.provider = link.process.provider
  frames : v.HasFrames link.process.obtained

/-- Behind the client's call in a round of the link. -/
structure Called (v : CameraView) (link : CameraLink) (input : CameraLink.Input) : Prop where
  free : ¬(link.process.client.currState = 3 ∧ link.wire = [])
  fits : link.HeaderFits input
  client : v.client = link.called input
  wire : v.wire = link.ahead input
  provider : v.provider = link.process.provider

/-- How far the round of the client's link is when this callback comes next: it counts as done
when the image provider has been called. -/
def Tracks (v : CameraView) (link : CameraLink) : FuncEntry → Prop
  | .client | .control | .imageDataTL => v.Between link
  | .server | .algoCtrl => ∃ input, v.Called link input ∧ v.HasFrames link.process.obtained
  | .diag | .imageProvider =>
    ∃ input, v.Called link input ∧ v.HasFrames (link.step input).process.obtained

variable {v : CameraView} {link : CameraLink} {input : CameraLink.Input}
  {images : List ColorImage}

/-- The client's callback begins a round of its link. -/
theorem Between.called (between : v.Between link)
    (free : ¬(v.client.currState = 3 ∧ v.wire = [])) (fits : link.HeaderFits input) :
    Called { v with
      client := v.client.run (input.toRound (v.wire.take (input.extra + 1))).client
      wire := v.wire.drop (min (CameraLink.requested v.client) (input.extra + 1)) } link input where
  free := by rwa [← between.client, ← between.wire]
  fits := fits
  client := by rw [CameraLink.called, ← between.client, ← between.wire]
  wire := by rw [CameraLink.ahead, ← between.client, ← between.wire]
  provider := between.provider

/-- A round of the link that is not blocked. -/
theorem Called.step_eq (called : v.Called link input) :
    link.step input =
      { process := link.process.round (input.toRound (link.wire.take (input.extra + 1)))
        wire := v.wire } := by
  rw [CameraLink.step, if_neg called.free, called.wire, CameraLink.ahead]

/-- Without a frame in the provider none is obtained in the round. -/
theorem Called.obtained_of_empty (called : v.Called link input)
    (empty : v.provider.recBufferSize = 0) :
    (link.step input).process.obtained = link.process.obtained ++ [none] := by
  rw [called.provider] at empty
  rw [called.step_eq, Process.round_obtained_of_empty _ empty]

theorem Called.obtained_of_full (called : v.Called link input)
    (full : v.provider.recBufferSize = colorImageSize) :
    (link.step input).process.obtained =
      link.process.obtained ++ [some v.provider.recBuffer.toList] := by
  rw [called.provider] at full ⊢
  rw [called.step_eq, Process.round_obtained_of_full _ full]

/-- Frames that are not scheduled may be obtained all the same. -/
theorem HasFrames.obtain {obtained : List (Option (List UInt8))} (has : v.HasFrames obtained)
    (frame : Option (List UInt8)) : v.HasFrames (obtained ++ [frame]) := by
  rw [HasFrames, List.filterMap_append]
  exact List.Sublist.trans has (List.sublist_append_left _ _)

theorem HasFrames.schedule {obtained : List (Option (List UInt8))} (has : v.HasFrames obtained)
    (frame : ColorImage) :
    HasFrames { v with frames := v.frames ++ [frame] } (obtained ++ [some frame.toList]) := by
  rw [HasFrames, List.filterMap_append, List.map_append]
  exact List.Sublist.append has (List.Sublist.refl _)

/-- The provider's callback ends the round. -/
theorem Called.between (called : v.Called link input)
    (frames : v.HasFrames (link.step input).process.obtained) :
    Between { v with
      client := (v.provider.run v.client).2
      provider := (v.provider.run v.client).1 } (link.step input) := by
  have hmodules := link.process.round_modules
    (input.toRound (link.wire.take (input.extra + 1)))
  rw [called.step_eq] at frames ⊢
  have hrun : v.provider.run v.client = link.process.provider.run (link.called input) := by
    rw [called.provider, called.client]
  exact ⟨by rw [hrun]; exact (congrArg Prod.snd hmodules).symm, rfl,
    by rw [hrun]; exact (congrArg Prod.fst hmodules).symm, frames⟩

/-- What has been obtained are some of the images. -/
theorem obtained_sublist (aligned : link.Aligned images) :
    (link.process.obtained.filterMap id).Sublist (images.map List.Vector.toList) := by
  obtain ⟨done, todo, rfl, hentered, -⟩ := aligned.position
  have hrecord := congrArg (List.filterMap id) aligned.handOff.record
  rw [List.filterMap_append] at hrecord
  have hentries : (none :: link.process.entered).filterMap id = link.entered := rfl
  rw [hentries, hentered] at hrecord
  have hprefix : (link.process.obtained.filterMap id).Sublist (done.map List.Vector.toList) := by
    rw [← hrecord]
    exact List.sublist_append_left _ _
  rw [List.map_append]
  exact List.Sublist.trans hprefix (List.sublist_append_left _ _)

theorem HasFrames.sublist (has : v.HasFrames link.process.obtained)
    (aligned : link.Aligned images) : v.frames.Sublist images := by
  obtain ⟨picked, hpicked, heq⟩ :=
    List.sublist_map_iff.mp (List.Sublist.trans has (obtained_sublist aligned))
  rwa [List.map_injective_iff.mpr List.Vector.toList_injective heq]

/-- At every moment the frames scheduled are some of the images. -/
theorem Tracks.sublist {place : FuncEntry} (tracks : v.Tracks link place)
    (aligned : link.Aligned images) : v.frames.Sublist images := by
  cases place with
  | client | control | imageDataTL => exact tracks.frames.sublist aligned
  | server | algoCtrl =>
    obtain ⟨-, -, hframes⟩ := tracks
    exact hframes.sublist aligned
  | diag | imageProvider =>
    obtain ⟨input, hcalled, hframes⟩ := tracks
    exact hframes.sublist (CameraLink.aligned_step link input aligned hcalled.fits)

/-- The provider has a whole frame or none. -/
theorem whole_of_aligned (aligned : link.Aligned images) :
    link.process.provider.recBufferSize = 0 ∨
      link.process.provider.recBufferSize = colorImageSize := by
  rcases aligned.handOff.phase with ⟨-, -, h⟩ | ⟨-, -, h, -⟩
  · exact .inl h
  · exact .inr h

end CameraView

/-! ## What holds between two steps -/

/-- What holds of the parts of the process. -/
structure Inv (images : List ColorImage) (s : MainProcess) : Prop where
  wellFormed : s.algo.WellFormed
  inSequence : s.algo.InSequence
  completed : s.algo.algoCtrl.algoState = .complete → s.algo.outputs ≠ []
  camera : ∃ link, CameraLink.Aligned images link ∧ s.cameraView.Tracks link s.toExecute
  sent : s.Sent s.algo.outputs

section Steps

variable {s : MainProcess} {images : List ColorImage}

theorem inv_start (images : List ColorImage) : (start images).Inv images where
  wellFormed := AlgoProcess.wellFormed_start
  inSequence := AlgoProcess.inSequence_start
  completed h := by cases h
  camera := ⟨CameraLink.start images, CameraLink.aligned_start images, rfl, rfl, rfl,
    List.Sublist.refl _⟩
  sent := ⟨[], rfl, List.prefix_refl _, fun _ => rfl⟩

/-- What is done outside the algorithm and the stream. -/
theorem Inv.of_algo_eq {s' : MainProcess} (inv : s.Inv images) (algo : s'.algo = s.algo)
    (stream : s'.stream = s.stream) (sending : s'.sending = s.sending)
    (camera : ∃ link, CameraLink.Aligned images link ∧ s'.cameraView.Tracks link s'.toExecute) :
    s'.Inv images where
  wellFormed := algo ▸ inv.wellFormed
  inSequence := algo ▸ inv.inSequence
  completed := algo ▸ inv.completed
  camera := camera
  sent := by rw [Sent, algo, stream, sending]; exact inv.sent

theorem inv_clientRun (inv : s.Inv images) (place : s.toExecute = .client)
    (input : CameraLink.Input)
    (fits : s.client.currState = 3 → s.client.headerIndex < cameraBufHeaderSize →
      s.client.headerIndex + (s.wire.take (min cameraBufHeaderSize (input.extra + 1))).length ≤
        cameraBufHeaderSize) : (s.clientRun input).Inv images := by
  obtain ⟨link, haligned, htracks⟩ := inv.camera
  rw [place] at htracks
  unfold clientRun
  split
  · exact inv
  · rename_i hfree
    refine inv.of_algo_eq rfl rfl rfl ⟨link, haligned, ?_⟩
    have hfits : link.HeaderFits input := by
      rw [CameraLink.HeaderFits, ← htracks.client, ← htracks.wire]
      exact fits
    rw [goOn, place]
    exact ⟨input, htracks.called hfree hfits, htracks.frames⟩

/-- A frame fits into an `int`. -/
theorem length_bufToSend (output : GrayscaleImage) :
    (DataTL.bufToSend output.toList).length < 2 ^ 31 := by
  rw [DataTL.bufToSend, Framing.length_encodeFrame, output.toList_length]
  decide

/-- What is sent to a client from one state to another is the last output, or the start of it. -/
def SendsLast (s s' : MainProcess) : Prop :=
  s.connected = true ∧
    ∃ (output : GrayscaleImage) (bytes : List UInt8), s.algo.outputs.getLast? = some output ∧
      bytes <+: DataTL.bufToSend output.toList ∧ s'.stream = s.stream ++ bytes ∧
        (s'.sending = false → bytes = DataTL.bufToSend output.toList)

theorem Sent.again {s' : MainProcess} (sent : s.Sent s.algo.outputs) (running : s.sending = false)
    (sends : s.SendsLast s') : s'.Sent s.algo.outputs := by
  obtain ⟨counts, hsame, -, hstream⟩ := sent
  obtain ⟨-, output, bytes, hlast, hbegins, hstream', hwhole⟩ := sends
  obtain ⟨counts', hsame', hagain⟩ := exists_sentFor_again hsame hlast
  refine ⟨counts', hsame', ?_, fun hrunning => ?_⟩
  · rw [hstream', hstream running, ← hagain]
    exact (List.prefix_append_right_inj _).mpr hbegins
  · rw [hstream', hstream running, hwhole hrunning, hagain]

/-- What is handed over is the last output: it is sent or not, or the call of `SERVER_send` has
not returned. -/
theorem offer_cases (inv : s.Inv images) {answers : List (Option ℕ)}
    (continues : s.algo.algoCtrl.algoState = .complete → s.dataTL.state = .sendData →
      s.connected = true → Server.Continues
        (DataTL.bufToSend s.algo.normalizer.normalizedImage.toList) 0 answers) :
    (s.offer answers).algo = s.algo ∧ (s.offer answers).cameraView = s.cameraView ∧
      (s.offer answers).toExecute = s.toExecute ∧
      ((s.offer answers).stream = s.stream ∧ (s.offer answers).sending = s.sending ∨
        s.SendsLast (s.offer answers)) := by
  unfold offer
  split
  · rename_i hcomplete
    have hidle : s.algo.worker = .idle := by
      by_contra hbusy
      rw [inv.wellFormed.running.mpr hbusy] at hcomplete
      cases hcomplete
    -- no job is under way, so that the image in the normalizer is the last one put out
    have hlast := NormalizerState.getLast?_execAll (inv.inSequence.idle hidle)
      (inv.completed hcomplete)
    rcases DataTL.sentGrayscaleImage_cases (length_bufToSend _) (continues hcomplete) with
      ⟨dataTL, hreturns, hnothing | ⟨hconnected, hwhole⟩⟩ | ⟨hsending, hconnected, hbegins⟩
    · simp only [hreturns, hnothing, List.append_nil]
      exact ⟨trivial, rfl, trivial, .inl ⟨trivial, trivial⟩⟩
    · simp only [hreturns, hwhole]
      exact ⟨trivial, rfl, trivial,
        .inr ⟨hconnected, _, _, hlast, List.prefix_refl _, rfl, fun _ => rfl⟩⟩
    · simp only [hsending]
      exact ⟨trivial, rfl, trivial, .inr ⟨hconnected, _, _, hlast, hbegins, rfl, by rintro ⟨⟩⟩⟩
  · exact ⟨rfl, rfl, rfl, .inl ⟨rfl, rfl⟩⟩

/-- A result is handed over. -/
theorem inv_offer (inv : s.Inv images) (running : s.sending = false) {answers : List (Option ℕ)}
    (continues : s.algo.algoCtrl.algoState = .complete → s.dataTL.state = .sendData →
      s.connected = true → Server.Continues
        (DataTL.bufToSend s.algo.normalizer.normalizedImage.toList) 0 answers) :
    (s.offer answers).Inv images := by
  obtain ⟨halgo, hview, hplace, hstream⟩ := offer_cases inv continues
  have hcamera : ∃ link, CameraLink.Aligned images link ∧
      (s.offer answers).cameraView.Tracks link (s.offer answers).toExecute := by
    rw [hview, hplace]
    exact inv.camera
  rcases hstream with ⟨hsame, hsending⟩ | hsends
  · exact inv.of_algo_eq halgo hsame hsending hcamera
  · refine ⟨?_, ?_, ?_, hcamera, ?_⟩ <;> rw [halgo]
    · exact inv.wellFormed
    · exact inv.inSequence
    · exact inv.completed
    · exact inv.sent.again running hsends

/-- The rest of the callback: a frame that is at hand is obtained, and scheduled unless the
algorithm is running. -/
theorem inv_obtain (inv : s.Inv images) (place : s.toExecute = .algoCtrl)
    (alive : s.algo.worker ≠ .crashed) (repeats : s.algo.FrameRepeats .algoCtrl) :
    s.obtain.Inv images := by
  obtain ⟨link, haligned, htracks⟩ := inv.camera
  rw [place] at htracks
  obtain ⟨input, hcalled, hframes⟩ := htracks
  have hplace : s.obtain.toExecute = .diag := by rw [obtain, goOn, place]; rfl
  have hnext : s.obtain.cameraView.Called link input ∧
      s.obtain.cameraView.HasFrames (link.step input).process.obtained ∧
      (s.algo.algoCtrlRun.algoCtrl.algoState = .complete → s.algo.algoCtrlRun.outputs ≠ []) ∧
      s.algo.algoCtrlRun.outputs = s.algo.outputs := by
    rcases inv.wellFormed.whole with hempty | hfull
    · have hrun : s.obtain.cameraView = s.cameraView := by
        rw [obtain, AlgoProcess.algoCtrlRun_of_empty hempty]
        rfl
      rw [hrun, hcalled.obtained_of_empty hempty, AlgoProcess.algoCtrlRun_of_empty hempty]
      exact ⟨hcalled, hframes.obtain none, inv.completed, rfl⟩
    · rw [hcalled.obtained_of_full hfull]
      by_cases hrunning : s.algo.algoCtrl.algoState = .running
      · have hrun : s.obtain.cameraView = s.cameraView := by
          rw [obtain, AlgoProcess.algoCtrlRun_of_running hfull hrunning]
          rfl
        rw [hrun, AlgoProcess.algoCtrlRun_of_running hfull hrunning]
        exact ⟨hcalled, hframes.obtain _, by rintro ⟨⟩, rfl⟩
      · have hrun : s.obtain.cameraView =
            { s.cameraView with frames := s.cameraView.frames ++ [s.algo.provider.recBuffer] } := by
          rw [obtain, AlgoProcess.algoCtrlRun_of_other hfull hrunning]
          simp only [cameraView, goOn, AlgoProcess.frames, List.map_append, List.map_singleton]
        rw [hrun, AlgoProcess.algoCtrlRun_of_other hfull hrunning]
        exact ⟨⟨hcalled.free, hcalled.fits, hcalled.client, hcalled.wire, hcalled.provider⟩,
          hframes.schedule _, by rintro ⟨⟩, rfl⟩
  obtain ⟨hcalled', hframes', hcompleted, houtputs⟩ := hnext
  refine ⟨AlgoProcess.wellFormed_algoCtrlRun inv.wellFormed,
    AlgoProcess.inSequence_algoCtrlRun inv.wellFormed inv.inSequence alive repeats, hcompleted,
    ⟨link, haligned, ?_⟩, ?_⟩
  · rw [hplace]
    exact ⟨input, hcalled', hframes'⟩
  · show s.Sent s.algo.algoCtrlRun.outputs
    rw [houtputs]
    exact inv.sent

theorem inv_providerRun (inv : s.Inv images) (place : s.toExecute = .imageProvider) :
    s.providerRun.Inv images := by
  obtain ⟨link, haligned, htracks⟩ := inv.camera
  rw [place] at htracks
  obtain ⟨input, hcalled, hframes⟩ := htracks
  have hbetween := hcalled.between hframes
  have haligned' := CameraLink.aligned_step link input haligned hcalled.fits
  have hwhole : (s.algo.provider.run s.client).1.recBufferSize = 0 ∨
      (s.algo.provider.run s.client).1.recBufferSize = colorImageSize := by
    have hprovider : (s.algo.provider.run s.client).1 = (link.step input).process.provider :=
      hbetween.provider
    rw [hprovider]
    exact CameraView.whole_of_aligned haligned'
  refine ⟨⟨hwhole, inv.wellFormed.running, inv.wellFormed.extremes⟩, inv.inSequence.congr,
    inv.completed, ⟨link.step input, haligned', ?_⟩, inv.sent⟩
  have hplace : s.providerRun.toExecute = .control := by
    simp only [providerRun, goOn, place]
    rfl
  rw [hplace]
  exact hbetween

/-- A callback that leaves the camera's side and the algorithm alone. -/
theorem inv_goOn {s' : MainProcess} (inv : s.Inv images) (view : s'.cameraView = s.cameraView)
    (algo : s'.algo = s.algo) (stream : s'.stream = s.stream) (sending : s'.sending = s.sending)
    (toExecute : s'.toExecute = s.toExecute.following)
    (idle : ∀ v link, CameraView.Tracks v link s.toExecute →
      CameraView.Tracks v link s.toExecute.following) : s'.Inv images := by
  obtain ⟨link, haligned, htracks⟩ := inv.camera
  refine inv.of_algo_eq algo stream sending ⟨link, haligned, ?_⟩
  rw [view, toExecute]
  exact idle _ _ htracks

/-- The worker's step. -/
theorem inv_workerRun (inv : s.Inv images) :
    Inv images { s with algo := s.algo.workerRun } := by
  obtain ⟨link, haligned, htracks⟩ := inv.camera
  obtain ⟨hprovider, -, hscheduled⟩ := s.algo.workerRun_frame
  have hview : cameraView { s with algo := s.algo.workerRun } = s.cameraView := by
    simp only [cameraView, AlgoProcess.frames, hprovider, hscheduled]
  have hwf := AlgoProcess.wellFormed_workerRun inv.wellFormed
  have hseq := AlgoProcess.inSequence_workerRun inv.inSequence
  have hcamera : ∃ link, CameraLink.Aligned images link ∧
      (cameraView { s with algo := s.algo.workerRun }).Tracks link s.toExecute := by
    rw [hview]
    exact inv.camera
  obtain ⟨counts, hsame, hstream⟩ := inv.sent
  -- the last step of a job completes it and adds an output, the others do neither
  rcases s.algo.workerRun_cases with ⟨-, h⟩ | ⟨-, h⟩ | ⟨_, -, _, h⟩ | ⟨_, -, -, h⟩ | ⟨-, h⟩ |
    ⟨normalizer, -, -, h⟩
  case inr.inr.inr.inr.inr =>
    refine ⟨hwf, hseq, fun _ => ?_, hcamera, ?_⟩
    · rw [h]
      exact List.append_ne_nil_of_right_ne_nil _ (List.cons_ne_nil _ _)
    · refine ⟨counts ++ [0], ?_, ?_⟩
      · rw [h, List.length_append, List.length_append, hsame]
        rfl
      · rw [h, sentFor_new hsame]
        exact hstream
  all_goals
    refine ⟨hwf, hseq, ?_, hcamera, counts, ?_, ?_⟩
    · rw [h]
      exact inv.completed
    · rw [h]
      exact hsame
    · rw [h]
      exact hstream

/-- **One step** that meets the conditions. -/
theorem inv_step (s : MainProcess) (action : MainAction) (inv : s.Inv images)
    (meets : s.Meets action) : (s.step action).Inv images := by
  by_cases hcrashed : s.algo.worker = .crashed
  · have hstep : s.step action = s := if_pos hcrashed
    rwa [hstep]
  cases action with
  | worker =>
    have hstep : s.step .worker = { s with algo := s.algo.workerRun } := if_neg hcrashed
    rw [hstep]
    exact inv_workerRun inv
  | main input =>
    have hstep : s.step (.main input) = if s.sending then s else s.mainRun input :=
      if_neg hcrashed
    rw [hstep]
    by_cases hsending : s.sending = true
    · rwa [if_pos hsending]
    rw [if_neg hsending]
    cases hplace : s.toExecute with
    | client =>
      simp only [mainRun, hplace]
      exact inv_clientRun inv hplace _ (meets.fits hplace)
    | server =>
      simp only [mainRun, hplace]
      exact inv_goOn inv rfl rfl rfl rfl (by rw [hplace]; rfl)
        (by rw [hplace]; exact fun _ _ h => h)
    | algoCtrl =>
      simp only [mainRun, hplace]
      split
      · rename_i hmidway
        exact inv_obtain inv hplace hcrashed (meets.repeats hplace hmidway)
      · rename_i hfirst
        exact inv_offer inv (by simpa using hsending)
          (meets.continues hplace (by simpa using hfirst))
    | diag =>
      simp only [mainRun, hplace]
      exact inv_goOn inv rfl rfl rfl rfl rfl (by rw [hplace]; exact fun _ _ h => h)
    | imageProvider =>
      simp only [mainRun, hplace]
      exact inv_providerRun inv hplace
    | control =>
      simp only [mainRun, hplace]
      exact inv_goOn inv rfl rfl rfl rfl rfl (by rw [hplace]; exact fun _ _ h => h)
    | imageDataTL =>
      simp only [mainRun, hplace]
      exact inv_goOn inv rfl rfl rfl rfl (by rw [hplace]; rfl)
        (by rw [hplace]; exact fun _ _ h => h)

/-- Nothing comes out where a frame is obtained. -/
theorem outputs_algoCtrlRun (p : AlgoProcess) : p.algoCtrlRun.outputs = p.outputs := by
  unfold AlgoProcess.algoCtrlRun
  simp only
  split <;> rfl

/-- What a step does to the outputs and to the stream: there may be one more output, or the last
one is sent, or neither. -/
theorem sent_step (s : MainProcess) (action : MainAction) (inv : s.Inv images)
    (meets : s.Meets action) :
    ((s.step action).stream = s.stream ∧ (s.step action).sending = s.sending ∧
      ((s.step action).algo.outputs = s.algo.outputs ∨
        ∃ output, (s.step action).algo.outputs = s.algo.outputs ++ [output])) ∨
    (s.sending = false ∧ (s.step action).algo.outputs = s.algo.outputs ∧
      s.SendsLast (s.step action)) := by
  by_cases hcrashed : s.algo.worker = .crashed
  · have hstep : s.step action = s := if_pos hcrashed
    rw [hstep]
    exact .inl ⟨rfl, rfl, .inl rfl⟩
  cases action with
  | worker =>
    have hstep : s.step .worker = { s with algo := s.algo.workerRun } := if_neg hcrashed
    rw [hstep]
    refine .inl ⟨rfl, rfl, ?_⟩
    -- the last step of a job adds an output
    rcases s.algo.workerRun_cases with ⟨-, h⟩ | ⟨-, h⟩ | ⟨_, -, _, h⟩ | ⟨_, -, -, h⟩ | ⟨-, h⟩ |
      ⟨normalizer, -, -, h⟩
    case inr.inr.inr.inr.inr => exact .inr ⟨normalizer.normalizedImage, by rw [h]⟩
    all_goals exact .inl (by rw [h])
  | main input =>
    have hstep : s.step (.main input) = if s.sending then s else s.mainRun input :=
      if_neg hcrashed
    rw [hstep]
    by_cases hsending : s.sending = true
    · rw [if_pos hsending]
      exact .inl ⟨rfl, rfl, .inl rfl⟩
    rw [if_neg hsending, mainRun]
    split
    · unfold clientRun
      split <;> exact .inl ⟨rfl, rfl, .inl rfl⟩
    · exact .inl ⟨rfl, rfl, .inl rfl⟩
    · rename_i hplace
      split
      · exact .inl ⟨rfl, rfl, .inl (outputs_algoCtrlRun s.algo)⟩
      · rename_i hfirst
        obtain ⟨halgo, -, -, hsent⟩ :=
          offer_cases inv (meets.continues hplace (by simpa using hfirst))
        rw [halgo]
        rcases hsent with ⟨hstream, hsame⟩ | hsends
        · exact .inl ⟨hstream, hsame, .inl rfl⟩
        · exact .inr ⟨by simpa using hsending, rfl, hsends⟩
    all_goals exact .inl ⟨rfl, rfl, .inl rfl⟩

/-- What has come out is what some of the images give. -/
theorem Inv.executed (inv : s.Inv images) :
    ∃ frames last, frames.Sublist images ∧
      NormalizerState.execAll frames = some (last, s.algo.outputs) := by
  obtain ⟨link, haligned, htracks⟩ := inv.camera
  obtain ⟨last, hexecuted⟩ := inv.inSequence.executed
  exact ⟨_, last, List.Sublist.trans (List.take_sublist _ _) (htracks.sublist haligned), hexecuted⟩

theorem Inv.faithful (inv : s.Inv images) : s.Faithful images := by
  obtain ⟨frames, last, hframes, hexecuted⟩ := inv.executed
  exact ⟨frames, last, _, hframes, hexecuted, inv.sent⟩

end Steps

/-- **From the camera to the image service.** In every interleaving of the callbacks with the
worker, the image service sends what the normalization of some of the camera's images gives, one
after the other and in their order, provided that the header phase is not given more than is
missing, that no other frame is obtained while one is being normalized, and that what `send`
accepts in parts goes on as the frame does. -/
theorem faithful_run (images : List ColorImage) (actions : List MainAction)
    (meets : Along step Meets (start images) actions) :
    (run step (start images) actions).Faithful images :=
  (run_invariant_along inv_step (inv_start images) meets).faithful

/-! ## A run with one image

The camera is found at once, `recv` hands out all that is asked for, a client of the image
service waits all the time, and `send` takes a frame as a whole. -/

/-- What the environment does in a step. -/
def calm (waits : Bool) : MainInput :=
  ⟨⟨some [49], 7, colorImageSize - 1, false⟩, waits, none,
    [some (bufHeaderSize + grayscaleImageSize)]⟩

/-- The callbacks one after the other. Algorithm control takes two steps. -/
def pass (waits : Bool) : List MainAction :=
  .main (calm false) :: .main (calm waits) :: .replicate 6 (.main (calm false))

section OneImage

variable {s : MainProcess} {client : ClientState} {wire : List UInt8} {algo : AlgoProcess}
  {connected : Bool}

/-- Between two passes, before anything has been sent. -/
def between (client : ClientState) (wire : List UInt8) (algo : AlgoProcess) (connected : Bool) :
    MainProcess :=
  ⟨client, wire, algo, .init, connected, [], .client, false, false⟩

/-- The client behind its callback, and what is left on the wire. -/
def calledWith (client : ClientState) (wire : List UInt8) : ClientState :=
  client.run ((calm false).client.toRound (wire.take ((calm false).client.extra + 1))).client

def leftOn (client : ClientState) (wire : List UInt8) : List UInt8 :=
  wire.drop (min (CameraLink.requested client) ((calm false).client.extra + 1))

theorem step_main (alive : s.algo.worker ≠ .crashed) (running : s.sending = false)
    (input : MainInput) : s.step (.main input) = s.mainRun input := by
  have hstep : s.step (.main input) = if s.sending then s else s.mainRun input := if_neg alive
  rw [hstep, running]
  rfl

theorem step_worker (s : MainProcess) : s.step .worker = { s with algo := s.algo.workerRun } := by
  by_cases hcrashed : s.algo.worker = .crashed
  · have hstep : s.step .worker = s := if_pos hcrashed
    rw [hstep, AlgoProcess.workerRun, hcrashed]
  · exact if_neg hcrashed

theorem run_worker (s : MainProcess) (n : ℕ) :
    run step s (List.replicate n .worker) =
      { s with algo := AlgoProcess.workerRun^[n] s.algo } := by
  induction n generalizing s with
  | zero => rfl
  | succ n ih => rw [List.replicate_succ, run_cons, step_worker, ih, Function.iterate_succ_apply]

/-- The conditions, where each call of `recv` and of `send` is given all it asks for. -/
theorem meets_calm {waits : Bool} (fresh : s.toExecute = .client →
      s.client.headerIndex = 0 ∨ cameraBufHeaderSize ≤ s.client.headerIndex)
    (other : s.midway = true → s.algo.algoCtrl.algoState ≠ .running) :
    s.Meets (.main (calm waits)) where
  fits place _ missing := by
    rcases fresh place with hzero | hcomplete
    · rw [hzero, Nat.zero_add, List.length_take]
      exact Nat.le_trans (Nat.min_le_left _ _) (Nat.min_le_left _ _)
    · exact absurd missing (Nat.not_lt.mpr hcomplete)
  repeats _ midway _ running := absurd running (other midway)
  continues _ _ _ _ _ := fun _ => ⟨by rw [List.drop_zero]; exact List.take_prefix _ _, trivial⟩

theorem algoCtrlRun_alive (alive : algo.worker ≠ .crashed) :
    algo.algoCtrlRun.worker ≠ .crashed := by
  unfold AlgoProcess.algoCtrlRun
  simp only
  split
  · rintro ⟨⟩
  · exact alive

/-- The first two callbacks. -/
theorem step_client (free : ¬(client.currState = 3 ∧ wire = [])) (alive : algo.worker ≠ .crashed) :
    step (between client wire algo connected) (.main (calm false)) =
      { between (calledWith client wire) (leftOn client wire) algo connected with
        toExecute := .server } := by
  rw [step_main alive rfl]
  exact if_neg free

theorem step_server (alive : algo.worker ≠ .crashed) (waits : Bool) :
    step { between client wire algo connected with toExecute := .server } (.main (calm waits)) =
      { between client wire algo (connected || waits) with toExecute := .algoCtrl } :=
  step_main alive rfl _

/-- **A pass** before the first output. -/
theorem run_pass (free : ¬(client.currState = 3 ∧ wire = []))
    (fresh : client.headerIndex = 0 ∨ cameraBufHeaderSize ≤ client.headerIndex)
    (first : algo.algoCtrl.algoState = .init) (alive : algo.worker ≠ .crashed) {waits : Bool}
    (accepted : (connected || waits) = true) {provider : ImageProviderState}
    {client' : ClientState}
    (provided : algo.algoCtrlRun.provider.run (calledWith client wire) = (provider, client')) :
    Along step Meets (between client wire algo connected) (pass waits) ∧
      run step (between client wire algo connected) (pass waits) =
        between client' (leftOn client wire)
          { algo.algoCtrlRun with provider := provider } true := by
  have halive := algoCtrlRun_alive alive
  have hfirst : algo.algoCtrl.algoState ≠ .complete := by rw [first]; rintro ⟨⟩
  have hoffer : step { between (calledWith client wire) (leftOn client wire) algo true with
        toExecute := .algoCtrl } (.main (calm false)) =
      { between (calledWith client wire) (leftOn client wire) algo true with
        toExecute := .algoCtrl, midway := true } := by
    rw [step_main alive rfl]
    exact if_neg hfirst
  have hobtain : step { between (calledWith client wire) (leftOn client wire) algo true with
        toExecute := .algoCtrl, midway := true } (.main (calm false)) =
      { between (calledWith client wire) (leftOn client wire) algo.algoCtrlRun true with
        toExecute := .diag } := step_main alive rfl _
  have hdiag : step { between (calledWith client wire) (leftOn client wire) algo.algoCtrlRun
        true with toExecute := .diag } (.main (calm false)) =
      { between (calledWith client wire) (leftOn client wire) algo.algoCtrlRun true with
        toExecute := .imageProvider } := step_main halive rfl _
  have hprovider : step { between (calledWith client wire) (leftOn client wire) algo.algoCtrlRun
        true with toExecute := .imageProvider } (.main (calm false)) =
      { between client' (leftOn client wire)
          { algo.algoCtrlRun with provider := provider } true with
        toExecute := .control } := by
    rw [step_main halive rfl]
    show providerRun _ = _
    simp only [providerRun, between, provided]
    rfl
  have hcontrol : step { between client' (leftOn client wire)
        { algo.algoCtrlRun with provider := provider } true with toExecute := .control }
        (.main (calm false)) =
      { between client' (leftOn client wire)
          { algo.algoCtrlRun with provider := provider } true with
        toExecute := .imageDataTL } := step_main halive rfl _
  have hdataTL : step { between client' (leftOn client wire)
        { algo.algoCtrlRun with provider := provider } true with toExecute := .imageDataTL }
        (.main (calm false)) =
      between client' (leftOn client wire) { algo.algoCtrlRun with provider := provider } true :=
    step_main halive rfl _
  have helsewhere {s : MainProcess} {waits : Bool} (place : s.toExecute ≠ .client)
      (start : s.midway = false) : s.Meets (.main (calm waits)) :=
    meets_calm (fun h => absurd h place) (fun h => by rw [start] at h; cases h)
  simp only [pass, List.replicate, along_cons, along_nil, run_cons, run_nil,
    step_client free alive, step_server alive, accepted, hoffer, hobtain, hdiag, hprovider,
    hcontrol, hdataTL, and_true]
  refine ⟨meets_calm (fun _ => fresh) (by rintro ⟨⟩), helsewhere ?_ rfl, helsewhere ?_ rfl,
    meets_calm (by rintro ⟨⟩) fun _ => ?_, helsewhere ?_ rfl, helsewhere ?_ rfl, helsewhere ?_ rfl,
    helsewhere ?_ rfl⟩
  case refine_3 =>
    show algo.algoCtrl.algoState ≠ .running
    rw [first]
    rintro ⟨⟩
  all_goals rintro ⟨⟩

/-- A pass in which the client hands nothing out, and nothing is at hand. -/
theorem run_pass_start (free : ¬(client.currState = 3 ∧ wire = []))
    (fresh : client.headerIndex = 0 ∨ cameraBufHeaderSize ≤ client.headerIndex)
    {client' : ClientState} (called : calledWith client wire = client')
    (other : client'.currState ≠ 4) {wire' : List UInt8} (left : leftOn client wire = wire')
    {waits : Bool} (accepted : (connected || waits) = true) :
    Along step Meets (between client wire .start connected) (pass waits) ∧
      run step (between client wire .start connected) (pass waits) =
        between client' wire' .start true := by
  have hprovided : AlgoProcess.start.algoCtrlRun.provider.run (calledWith client wire) =
      (⟨.replicate _ 0, 0⟩, client') := by
    rw [AlgoProcess.algoCtrlRun_of_empty rfl, called, ImageProviderState.run_of_other _ other]
    rfl
  obtain ⟨hmeets, hrun⟩ :
      Along step Meets (between client wire .start connected) (pass waits) ∧ _ :=
    run_pass free fresh rfl (by rintro ⟨⟩) accepted hprovided
  rw [AlgoProcess.algoCtrlRun_of_empty rfl, left] at hrun
  exact ⟨hmeets, hrun⟩

theorem leftOn_of_other (other : client.currState ≠ 3) (wire : List UInt8) :
    leftOn client wire = wire := by
  rw [leftOn, CameraLink.requested, if_neg other, Nat.zero_min, List.drop_zero]

/-- The header is received in one piece. -/
theorem called_header (connected : client.currState = 3) (fresh : client.headerIndex = 0)
    (rest : List UInt8) :
    (∃ camBufHeader overrun, calledWith client (PiVisCamera.header ++ rest) = { client with
      camBufHeader := camBufHeader
      headerIndex := cameraBufHeaderSize
      overrun := overrun }) ∧ leftOn client (PiVisCamera.header ++ rest) = rest := by
  have hmissing : client.headerIndex < cameraBufHeaderSize := by rw [fresh]; decide
  have hasked : min cameraBufHeaderSize ((calm false).client.extra + 1) =
      PiVisCamera.header.length := by
    rw [PiVisCamera.length_header]
    rfl
  have hgiven : ((PiVisCamera.header ++ rest).take ((calm false).client.extra + 1)).take
      cameraBufHeaderSize = PiVisCamera.header := by
    rw [List.take_take, hasked, List.take_left]
  constructor
  · have hrun : calledWith client (PiVisCamera.header ++ rest) = _ :=
      CameraLink.run_header connected hmissing rfl
    rw [hgiven, PiVisCamera.length_header, fresh, Nat.zero_add] at hrun
    exact ⟨_, _, hrun⟩
  · rw [leftOn, CameraLink.requested, if_pos connected, if_pos hmissing, hasked, List.drop_left]

/-- So are the pixels. -/
theorem called_pixels (connected : client.currState = 3)
    (complete : client.headerIndex = cameraBufHeaderSize) (empty : client.bufferIndex = 0)
    (image : ColorImage) (rest : List UInt8) :
    calledWith client (image.toList ++ rest) = { client with
      buffer := image
      bufferIndex := 0
      headerIndex := 0
      currState := 4 } ∧ leftOn client (image.toList ++ rest) = rest := by
  have hasked : (calm false).client.extra + 1 = colorImageSize := rfl
  have hlength : image.toList.length = colorImageSize := image.toList_length
  have hgiven : ((image.toList ++ rest).take ((calm false).client.extra + 1)).take
      (colorImageSize - client.bufferIndex) = image.toList := by
    rw [empty, Nat.sub_zero, hasked, List.take_take, Nat.min_self, List.take_left' hlength]
  have hinside : client.bufferIndex < colorImageSize := by
    rw [empty]
    exact colorImageSize_pos
  constructor
  · have hrun : calledWith client (image.toList ++ rest) = _ :=
      CameraLink.run_pixels connected complete hinside rfl hgiven
    have hlast : client.bufferIndex + image.toList.length = colorImageSize := by
      rw [empty, Nat.zero_add, hlength]
    have hbuffer : Block.write client.buffer client.bufferIndex image.toList = image := by
      rw [empty]
      exact List.Vector.eq _ _ (Block.toList_write_full client.buffer image.toList_length)
    rw [hrun, if_pos hlast, hbuffer]
  · have hmore : ¬client.headerIndex < cameraBufHeaderSize := by
      rw [complete]
      exact Nat.lt_irrefl _
    rw [leftOn, CameraLink.requested, if_pos connected, if_neg hmore, empty, Nat.sub_zero, hasked,
      Nat.min_self, List.drop_left' hlength]

/-- The camera is found in three passes. -/
theorem exists_connected (wire : List UInt8) :
    ∃ client : ClientState, client.currState = 3 ∧ client.headerIndex = 0 ∧
      client.bufferIndex = 0 ∧
      Along step Meets (between (.init 0 (-1)) wire .start false)
        (pass true ++ pass false ++ pass false) ∧
      run step (between (.init 0 (-1)) wire .start false) (pass true ++ pass false ++ pass false) =
        between client wire .start true := by
  generalize haddress : Block.write (ClientState.init 0 (-1)).serverAddress 0 [49, 0] = address
  have hsearch : calledWith (.init 0 (-1)) wire =
      { ClientState.init 0 (-1) with serverAddress := address, currState := 1 } := by
    rw [← haddress]
    rfl
  obtain ⟨hmeets, hrun⟩ := run_pass_start (by rintro ⟨⟨⟩, -⟩) (.inl rfl) hsearch (by rintro ⟨⟩)
    (leftOn_of_other (by rintro ⟨⟩) wire)
    (show (false || true) = true from rfl)
  obtain ⟨hmeets', hrun'⟩ := run_pass_start (by rintro ⟨⟨⟩, -⟩) (.inl rfl)
    (show calledWith { ClientState.init 0 (-1) with
        serverAddress := address, currState := 1 } wire =
      { ClientState.init 0 (-1) with serverAddress := address, currState := 2 } from rfl)
    (by rintro ⟨⟩) (leftOn_of_other (by rintro ⟨⟩) wire)
    (show (true || false) = true from rfl)
  obtain ⟨hmeets'', hrun''⟩ := run_pass_start (by rintro ⟨⟨⟩, -⟩) (.inl rfl)
    (show calledWith { ClientState.init 0 (-1) with
        serverAddress := address, currState := 2 } wire =
      { ClientState.init 0 7 with serverAddress := address, currState := 3 } from rfl)
    (by rintro ⟨⟩) (leftOn_of_other (by rintro ⟨⟩) wire)
    (show (true || false) = true from rfl)
  refine ⟨{ ClientState.init 0 7 with serverAddress := address, currState := 3 }, rfl, rfl, rfl,
    ?_, ?_⟩
  · rw [along_append, along_append, run_append, hrun, hrun']
    exact ⟨⟨hmeets, hmeets'⟩, hmeets''⟩
  · rw [run_append, run_append, hrun, hrun', hrun'']

/-- What the process is behind the pass in which the image provider has copied the image. -/
def provided (image : ColorImage) : AlgoProcess :=
  { AlgoProcess.start with provider := ⟨image, colorImageSize⟩ }

/-- What it is behind the next one, in which the image has been scheduled. -/
def scheduled (image : ColorImage) : AlgoProcess where
  provider := ⟨image, 0⟩
  algoCtrl := ⟨image, .running⟩
  worker := .queued
  normalizer := .init
  scheduled := [(0, image)]
  outputs := []

/-- A pass for the header, and one for the pixels. -/
theorem exists_provided (connected : client.currState = 3) (fresh : client.headerIndex = 0)
    (empty : client.bufferIndex = 0) (image : ColorImage) (rest : List UInt8) :
    ∃ client' : ClientState, client'.currState = 4 ∧ client'.headerIndex = 0 ∧
      client'.bufferIndex = colorImageSize ∧
      let s := between client (PiVisCamera.header ++ (image.toList ++ rest)) .start true
      Along step Meets s (pass false ++ pass false) ∧
        run step s (pass false ++ pass false) = between client' rest (provided image) true := by
  have hnonempty : image.toList ≠ [] := by
    rw [← List.length_pos_iff, image.toList_length]
    exact colorImageSize_pos
  obtain ⟨⟨camBufHeader, overrun, hcalled⟩, hleft⟩ :=
    called_header connected fresh (image.toList ++ rest)
  generalize hclient' : ({ client with
      camBufHeader := camBufHeader
      headerIndex := cameraBufHeaderSize
      overrun := overrun } : ClientState) = client' at hcalled
  have hconnected : client'.currState = 3 := by rw [← hclient', ← connected]
  have hcomplete : client'.headerIndex = cameraBufHeaderSize := by rw [← hclient']
  have hempty : client'.bufferIndex = 0 := by rw [← hclient', ← empty]
  obtain ⟨hmeets, hrun⟩ : Along step Meets
      (between client (PiVisCamera.header ++ (image.toList ++ rest)) .start true)
      (pass false) ∧ _ :=
    run_pass_start (by rintro ⟨-, ⟨⟩⟩) (.inl fresh) hcalled (by rw [hconnected]; decide) hleft rfl
  obtain ⟨hpixels, hbehind⟩ := called_pixels hconnected hcomplete hempty image rest
  have hprovided : AlgoProcess.start.algoCtrlRun.provider.run
      (calledWith client' (image.toList ++ rest)) = (⟨image, colorImageSize⟩, { client' with
        buffer := image
        bufferIndex := colorImageSize
        headerIndex := 0
        currState := 4 }) := by
    rw [AlgoProcess.algoCtrlRun_of_empty rfl, hpixels,
      ImageProviderState.run_of_processing _ rfl rfl]
  obtain ⟨hmeets', hrun'⟩ : Along step Meets
      (between client' (image.toList ++ rest) .start true) (pass false) ∧ _ :=
    run_pass (fun h => hnonempty (List.append_eq_nil_iff.mp h.2).1)
      (.inr (Nat.le_of_eq hcomplete.symm)) rfl (by rintro ⟨⟩) rfl hprovided
  rw [AlgoProcess.algoCtrlRun_of_empty rfl, hbehind] at hrun'
  refine ⟨{ client' with
    buffer := image
    bufferIndex := colorImageSize
    headerIndex := 0
    currState := 4 }, rfl, rfl, rfl, ?_, ?_⟩
  · rw [along_append, hrun]
    exact ⟨hmeets, hmeets'⟩
  · rw [run_append, hrun, hrun']
    rfl

/-- The pass in which the image is scheduled. -/
theorem exists_scheduled (processing : client.currState = 4) (fresh : client.headerIndex = 0)
    (taken : client.bufferIndex = colorImageSize) (image : ColorImage) (wire : List UInt8) :
    ∃ client' : ClientState, client'.currState = 3 ∧ client'.headerIndex = 0 ∧
      Along step Meets (between client wire (provided image) true) (pass false) ∧
        run step (between client wire (provided image) true) (pass false) =
          between client' wire (scheduled image) true := by
  have hcalled : calledWith client wire = { client with bufferIndex := 0, currState := 3 } :=
    client.run_processing _ processing taken
  have hscheduled : (provided image).algoCtrlRun = _ :=
    AlgoProcess.algoCtrlRun_of_other rfl (by rintro ⟨⟩)
  have hprovided : (provided image).algoCtrlRun.provider.run (calledWith client wire) =
      (⟨image, 0⟩, { client with bufferIndex := 0, currState := 3 }) := by
    rw [hscheduled, hcalled, ImageProviderState.run_of_other _ (by rintro ⟨⟩)]
    rfl
  have hother : client.currState ≠ 3 := by rw [processing]; decide
  obtain ⟨hmeets, hrun⟩ :
      Along step Meets (between client wire (provided image) true) (pass false) ∧ _ :=
    run_pass (fun h => hother h.1) (.inl fresh) rfl (by rintro ⟨⟩) rfl hprovided
  rw [hscheduled, leftOn_of_other hother] at hrun
  exact ⟨{ client with bufferIndex := 0, currState := 3 }, rfl, fresh, hmeets, hrun⟩

/-- A frame is taken whole. -/
theorem send_calm (output : GrayscaleImage) :
    Server.send true (DataTL.bufToSend output.toList) (calm false).answers =
      .sent (DataTL.bufToSend output.toList) := by
  have hlength : (DataTL.bufToSend output.toList).length = bufHeaderSize + grayscaleImageSize := by
    rw [DataTL.bufToSend, Framing.length_encodeFrame, List.Vector.toList_length]
  have hnonempty : DataTL.bufToSend output.toList ≠ [] := by
    rw [← List.length_pos_iff, hlength]
    exact Nat.lt_of_lt_of_le (by decide) (Nat.le_add_right _ _)
  have hwhole := Server.send_of_whole hnonempty (length_bufToSend output) 0
  rw [hlength] at hwhole
  exact hwhole

/-- A result that is sent as a whole. -/
theorem stream_offer (complete : s.algo.algoCtrl.algoState = .complete)
    (idle : s.dataTL.state = .sendData) {answers : List (Option ℕ)} {stream : List UInt8}
    (sent : Server.send s.connected (DataTL.bufToSend s.algo.normalizer.normalizedImage.toList)
      answers = .sent stream) : (s.offer answers).stream = s.stream ++ stream := by
  obtain ⟨hreturns, hsent⟩ := DataTL.sendGrayscaleImageTo_of_sent idle sent
  rw [offer, if_pos complete]
  simp only [hreturns, hsent]

/-- The result is sent as a whole when algorithm control is called the next time. -/
theorem run_send (fresh : client.headerIndex = 0) (nonempty : wire ≠ [])
    (alive : algo.worker ≠ .crashed) (complete : algo.algoCtrl.algoState = .complete) :
    Along step Meets (between client wire algo true) (.replicate 3 (.main (calm false))) ∧
      (run step (between client wire algo true) (.replicate 3 (.main (calm false)))).stream =
        DataTL.bufToSend algo.normalizer.normalizedImage.toList := by
  have hfree : ¬(client.currState = 3 ∧ wire = []) := fun h => nonempty h.2
  obtain ⟨s, hs⟩ : ∃ s : MainProcess, s = { between (calledWith client wire) (leftOn client wire)
      algo true with toExecute := .algoCtrl } := ⟨_, rfl⟩
  have hclient : step (between client wire algo true) (.main (calm false)) = _ :=
    step_client hfree alive
  have hserver : step { between (calledWith client wire) (leftOn client wire) algo true with
      toExecute := .server } (.main (calm false)) = s := (step_server alive false).trans hs.symm
  have hoffer : s.step (.main (calm false)) = s.offer (calm false).answers := by
    rw [hs]
    exact step_main alive rfl _
  have hstream : (s.offer (calm false).answers).stream =
      DataTL.bufToSend algo.normalizer.normalizedImage.toList := by
    have hsend : Server.send s.connected
        (DataTL.bufToSend s.algo.normalizer.normalizedImage.toList) (calm false).answers =
          .sent (DataTL.bufToSend algo.normalizer.normalizedImage.toList) := by
      rw [hs]
      exact send_calm _
    rw [stream_offer (by rw [hs]; exact complete) (by rw [hs]; rfl) hsend, hs]
    exact List.nil_append _
  simp only [List.replicate, along_cons, along_nil, run_cons, run_nil, hclient, hserver, hoffer,
    hstream, and_true]
  refine ⟨meets_calm (fun _ => .inl fresh) (by rintro ⟨⟩), meets_calm (by rintro ⟨⟩)
    (by rintro ⟨⟩), meets_calm ?_ ?_⟩
  · rw [hs]
    rintro ⟨⟩
  · rw [hs]
    rintro ⟨⟩

/-- Six passes, the job, and the beginning of another pass, with the next image on the wire. -/
def oneImage : List MainAction :=
  pass true ++ pass false ++ pass false ++
    (pass false ++ pass false ++
      (pass false ++
        (.replicate (colorImageSize + 3) .worker ++ .replicate 3 (.main (calm false)))))

theorem run_oneImage {image : ColorImage} {after : NormalizerState}
    (completes : NormalizerState.init.exec image = some after) :
    Along step Meets (start [image, image]) oneImage ∧
      (run step (start [image, image]) oneImage).stream =
        DataTL.bufToSend after.normalizedImage.toList := by
  have hstart : start [image, image] =
      between (.init 0 (-1)) (PiVisCamera.stream [image, image]) .start false := rfl
  have hwire : PiVisCamera.stream [image, image] =
      PiVisCamera.header ++ (image.toList ++ PiVisCamera.stream [image]) :=
    PiVisCamera.stream_cons _ _
  -- the camera is found, the image received, and scheduled; the job is done; the result is sent
  obtain ⟨found, hconnected, hfresh, hempty, hmeets, hrun⟩ :=
    exists_connected (PiVisCamera.stream [image, image])
  obtain ⟨received, hprocessing, hfresh', htaken, hmeets', hrun'⟩ :=
    exists_provided hconnected hfresh hempty image (PiVisCamera.stream [image])
  obtain ⟨back, -, hfresh'', hmeets'', hrun''⟩ :=
    exists_scheduled hprocessing hfresh' htaken image (PiVisCamera.stream [image])
  have henough : AlgoProcess.callRank (scheduled image).worker ≤ colorImageSize + 3 := Nat.le_refl _
  have hjob := AlgoProcess.iterate_workerRun
    (AlgoProcess.works_of_exec (p := scheduled image) rfl completes) rfl henough
  have hnonempty : PiVisCamera.stream [image] ≠ [] := by
    rw [← List.length_pos_iff, PiVisCamera.length_stream]
    exact (by decide : 0 < 1 * PiVisCamera.writtenSize)
  generalize hdone : ({ scheduled image with
    worker := .idle
    normalizer := after
    algoCtrl := { (scheduled image).algoCtrl with algoState := .complete }
    outputs := (scheduled image).outputs ++ [after.normalizedImage] } : AlgoProcess) = done at hjob
  have hworker : run step (between back (PiVisCamera.stream [image]) (scheduled image) true)
      (.replicate (colorImageSize + 3) .worker) =
        between back (PiVisCamera.stream [image]) done true := by
    rw [run_worker, ← hjob]
    rfl
  have hbusy (s : MainProcess) : Along step Meets s (.replicate (colorImageSize + 3) .worker) :=
    along_of_forall_mem (fun s action hworker => by rw [hworker]; exact ⟨trivial, trivial, trivial⟩)
      s fun action hmem => List.eq_of_mem_replicate hmem
  have halive : done.worker ≠ .crashed := by
    rw [← hdone]
    rintro ⟨⟩
  obtain ⟨hlast, hsent⟩ := run_send hfresh'' hnonempty halive (by rw [← hdone])
  have houtput : done.normalizer = after := by rw [← hdone]
  rw [hwire] at hmeets hrun
  rw [hstart, hwire, oneImage]
  constructor
  · refine (along_append ..).mpr ⟨hmeets, ?_⟩
    rw [hrun]
    refine (along_append ..).mpr ⟨hmeets', ?_⟩
    rw [hrun']
    refine (along_append ..).mpr ⟨hmeets'', ?_⟩
    rw [hrun'']
    refine (along_append ..).mpr ⟨hbusy _, ?_⟩
    rwa [hworker]
  · rw [run_append, hrun, run_append, hrun', run_append, hrun'', run_append, hworker, hsent,
      houtput]

end OneImage

/-- The image of two halves. -/
theorem faithful_run_oneImage :
    (run step (start [halves, halves]) oneImage).Faithful [halves, halves] ∧
      (run step (start [halves, halves]) oneImage).stream =
        DataTL.bufToSend (normalized (grayscale halves) 101).normalizedImage.toList := by
  obtain ⟨hmeets, hstream⟩ := run_oneImage exec_halves
  generalize oneImage = actions at hmeets hstream ⊢
  exact ⟨faithful_run _ actions hmeets, hstream⟩

end MainProcess

end PiVision
