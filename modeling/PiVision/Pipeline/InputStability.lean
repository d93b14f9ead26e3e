import PiVision.Pipeline.Normalizer
import PiVision.Pipeline.Scheduler

/-!
# The input of a running algorithm

The callback of algorithm control and the worker that executes `algorithms[0]` share
`recBuffer`: the callback copies every frame that has arrived into it, and the worker
reads it byte by byte. The callback looks at the state of the algorithm behind the copy,
so the frame that it then drops has already replaced the input.

The callbacks and the worker are interleaved at will. The worker's steps are the bytes
it reads; behind the last of them it works on memory that only it touches until it sets
`ALGO_COMPLETE`, so that part is one step.
-/

namespace PiVision

open Machine NormalizerState

deriving instance DecidableEq for GrayscaleLocals

/-- Where the execution of `algorithms[0]` stands. -/
inductive Worker
  | idle
  | queued
  | creating (locals : GrayscaleLocals)
  | normalizing
  | crashed
  deriving DecidableEq

/-- The modules that meet in `recBuffer`. `scheduled` has the frame of each job and what
`averageIntensity` held when it was scheduled, `outputs` the output of each job that has
been completed. -/
structure AlgoProcess where
  provider : ImageProviderState
  algoCtrl : AlgoCtrlState
  worker : Worker
  normalizer : NormalizerState
  scheduled : List (UInt32 × ColorImage)
  outputs : List GrayscaleImage

/-- A step: the callback of algorithm control, the callback of the image provider with
the frame that the client hands out, or a step of the worker. -/
inductive AlgoAction
  | algoCtrl
  | provider (frame : Option ColorImage)
  | worker

namespace AlgoProcess

/-- The process before its first round. -/
def start : AlgoProcess := ⟨.init, .init, .idle, .init, [], []⟩

/-- The bytes that `algorithms[0].inputData` points to. -/
def inputData (s : AlgoProcess) : ColorImage := s.algoCtrl.recBuffer

/-- The callback of algorithm control. A job that it schedules is executed once. -/
def algoCtrlRun (s : AlgoProcess) : AlgoProcess :=
  let (algoCtrl, effect) := s.algoCtrl.run s.provider
  if effect.schedules then
    { s with
      algoCtrl := algoCtrl
      -- the job is created here and executed at any later time
      worker := .queued
      scheduled := s.scheduled ++ [(s.normalizer.averageIntensity, algoCtrl.recBuffer)] }
  else { s with algoCtrl := algoCtrl }

/-- The callback of the image provider. -/
def providerRun (s : AlgoProcess) : Option ColorImage → AlgoProcess
  | some frame => { s with provider := ⟨frame, colorImageSize⟩ }
  | none => { s with provider := ⟨s.provider.recBuffer, 0⟩ }

/-- A step of `IMGNORMALGO_exec`. -/
def workerRun (s : AlgoProcess) : AlgoProcess :=
  match s.worker with
  | .queued => { s with worker := .creating locals }
  | .creating l =>
    if h : l.bufIndex < colorImageSize then
      -- one byte of `inputData`, as it is at this moment
      let next := grayscaleBody (l, s.normalizer.grayscaleImage) (s.inputData.get ⟨l.bufIndex, h⟩)
      { s with
        worker := .creating next.1
        normalizer := { s.normalizer with grayscaleImage := next.2 } }
    else { s with worker := .normalizing }
  | .normalizing =>
    match normalizeImage s.normalizer with
    | some normalizer =>
      { s with
        worker := .idle
        normalizer := resetExtremes normalizer
        algoCtrl := { s.algoCtrl with algoState := .complete }
        outputs := s.outputs ++ [normalizer.normalizedImage] }
    -- a division by zero
    | none => { s with worker := .crashed }
  | _ => s

/-- A step. A crash of the worker ends the process. -/
def step (s : AlgoProcess) (action : AlgoAction) : AlgoProcess :=
  if s.worker = .crashed then s
  else
    match action with
    | .algoCtrl => s.algoCtrlRun
    | .provider frame => s.providerRun frame
    | .worker => s.workerRun

/-- The step leaves the input of a running algorithm as it is. -/
def InputKept (s : AlgoProcess) (action : AlgoAction) : Prop :=
  s.algoCtrl.algoState = .running → (s.step action).inputData = s.inputData

/-- The step is a callback of algorithm control that finds a frame. -/
def Obtains (s : AlgoProcess) (action : AlgoAction) : Prop :=
  action = .algoCtrl ∧ s.worker ≠ .crashed ∧ s.provider.recBufferSize = colorImageSize

/-- A frame that is obtained while the algorithm is running is the one it is running
on. -/
def FrameRepeats (s : AlgoProcess) (action : AlgoAction) : Prop :=
  s.Obtains action → s.algoCtrl.algoState = .running → s.provider.recBuffer = s.inputData

/-- A frame that is scheduled finds too little in `averageIntensity` to change its
average. -/
def FrameApart (s : AlgoProcess) (action : AlgoAction) : Prop :=
  s.Obtains action → s.algoCtrl.algoState ≠ .running →
    LeavesAverage s.normalizer.averageIntensity s.provider.recBuffer

/-- The outputs so far, in order, are those of the frames scheduled. -/
def OutputsOfFrames (s : AlgoProcess) : Prop :=
  s.outputs.map some = (s.scheduled.take s.outputs.length).map fun job => outputOf job.1 job.2

/-- The outputs so far, in order, are a function of nothing but the frames scheduled. -/
def OutputsOfFramesAlone (s : AlgoProcess) : Prop :=
  s.outputs.map some = (s.scheduled.take s.outputs.length).map fun job => outputOf 0 job.2

/-! ## The steps -/

section Steps

variable {s : AlgoProcess}

theorem step_crashed (crashed : s.worker = .crashed) (action : AlgoAction) :
    s.step action = s := if_pos crashed

theorem step_alive (alive : s.worker ≠ .crashed) (action : AlgoAction) :
    s.step action = match action with
      | .algoCtrl => s.algoCtrlRun
      | .provider frame => s.providerRun frame
      | .worker => s.workerRun := if_neg alive

/-- What each part of a step keeps is kept by the step. -/
theorem step_preserves {P : AlgoProcess → Prop} (action : AlgoAction) (holds : P s)
    (algoCtrl : action = .algoCtrl → s.worker ≠ .crashed → P s.algoCtrlRun)
    (provider : ∀ frame, P (s.providerRun frame)) (worker : P s.workerRun) :
    P (s.step action) := by
  by_cases hcrashed : s.worker = .crashed
  · rw [step_crashed hcrashed]
    exact holds
  rw [step_alive hcrashed]
  cases action with
  | algoCtrl => exact algoCtrl rfl hcrashed
  | provider frame => exact provider frame
  | worker => exact worker

theorem algoCtrlRun_of_empty (empty : s.provider.recBufferSize = 0) : s.algoCtrlRun = s := by
  simp [algoCtrlRun, AlgoCtrlState.run_of_empty _ empty]

theorem algoCtrlRun_of_running (full : s.provider.recBufferSize = colorImageSize)
    (running : s.algoCtrl.algoState = .running) :
    s.algoCtrlRun = { s with algoCtrl := ⟨s.provider.recBuffer, .running⟩ } := by
  simp [algoCtrlRun, AlgoCtrlState.run_of_full _ full, running]

theorem algoCtrlRun_of_other (full : s.provider.recBufferSize = colorImageSize)
    (other : s.algoCtrl.algoState ≠ .running) :
    s.algoCtrlRun = { s with
      algoCtrl := ⟨s.provider.recBuffer, .running⟩
      worker := .queued
      scheduled := s.scheduled ++ [(s.normalizer.averageIntensity, s.provider.recBuffer)] } := by
  simp [algoCtrlRun, AlgoCtrlState.run_of_full _ full, other]

/-- What a callback of algorithm control can do: nothing, drop the frame it has copied, or
schedule it. -/
theorem algoCtrlRun_cases
    (whole : s.provider.recBufferSize = 0 ∨ s.provider.recBufferSize = colorImageSize) :
    s.algoCtrlRun = s ∨
    (s.provider.recBufferSize = colorImageSize ∧ s.algoCtrl.algoState = .running ∧
      s.algoCtrlRun = { s with algoCtrl := ⟨s.provider.recBuffer, .running⟩ }) ∨
    (s.provider.recBufferSize = colorImageSize ∧ s.algoCtrl.algoState ≠ .running ∧
      s.algoCtrlRun = { s with
        algoCtrl := ⟨s.provider.recBuffer, .running⟩
        worker := .queued
        scheduled :=
          s.scheduled ++ [(s.normalizer.averageIntensity, s.provider.recBuffer)] }) := by
  rcases whole with hempty | hfull
  · exact .inl (algoCtrlRun_of_empty hempty)
  by_cases hrunning : s.algoCtrl.algoState = .running
  · exact .inr (.inl ⟨hfull, hrunning, algoCtrlRun_of_running hfull hrunning⟩)
  · exact .inr (.inr ⟨hfull, hrunning, algoCtrlRun_of_other hfull hrunning⟩)

/-- The provider's callback changes the provider only. -/
theorem providerRun_eq (s : AlgoProcess) (frame : Option ColorImage) :
    ∃ provider : ImageProviderState,
      (provider.recBufferSize = 0 ∨ provider.recBufferSize = colorImageSize) ∧
        s.providerRun frame = { s with provider := provider } := by
  cases frame with
  | none => exact ⟨⟨s.provider.recBuffer, 0⟩, .inl rfl, rfl⟩
  | some frame => exact ⟨⟨frame, colorImageSize⟩, .inr rfl, rfl⟩

/-- What a step of the worker can do. -/
theorem workerRun_cases (s : AlgoProcess) :
    ((s.worker = .idle ∨ s.worker = .crashed) ∧ s.workerRun = s) ∨
    (s.worker = .queued ∧ s.workerRun = { s with worker := .creating locals }) ∨
    (∃ l, s.worker = .creating l ∧ ∃ h : l.bufIndex < colorImageSize, s.workerRun = { s with
      worker := .creating (grayscaleBody (l, s.normalizer.grayscaleImage)
        (s.inputData.get ⟨l.bufIndex, h⟩)).1
      normalizer := { s.normalizer with
        grayscaleImage := (grayscaleBody (l, s.normalizer.grayscaleImage)
          (s.inputData.get ⟨l.bufIndex, h⟩)).2 } }) ∨
    (∃ l, s.worker = .creating l ∧ colorImageSize ≤ l.bufIndex ∧
      s.workerRun = { s with worker := .normalizing }) ∨
    (s.worker = .normalizing ∧ s.workerRun = { s with worker := .crashed }) ∨
    (∃ normalizer, s.worker = .normalizing ∧ normalizeImage s.normalizer = some normalizer ∧
      s.workerRun = { s with
        worker := .idle
        normalizer := resetExtremes normalizer
        algoCtrl := { s.algoCtrl with algoState := .complete }
        outputs := s.outputs ++ [normalizer.normalizedImage] }) := by
  cases hworker : s.worker with
  | idle => exact .inl ⟨.inl rfl, by simp [workerRun, hworker]⟩
  | crashed => exact .inl ⟨.inr rfl, by simp [workerRun, hworker]⟩
  | queued => exact .inr (.inl ⟨rfl, by simp [workerRun, hworker]⟩)
  | creating l =>
    by_cases h : l.bufIndex < colorImageSize
    · exact .inr (.inr (.inl ⟨l, rfl, h, by simp [workerRun, hworker, h]⟩))
    · exact .inr (.inr (.inr (.inl ⟨l, rfl, Nat.not_lt.mp h, by simp [workerRun, hworker, h]⟩)))
  | normalizing =>
    cases hnormalize : normalizeImage s.normalizer with
    | none =>
      exact .inr (.inr (.inr (.inr (.inl ⟨rfl, by simp [workerRun, hworker, hnormalize]⟩))))
    | some normalizer =>
      exact .inr (.inr (.inr (.inr (.inr
        ⟨normalizer, rfl, rfl, by simp [workerRun, hworker, hnormalize]⟩))))

/-- The worker writes neither the provider's buffer nor its own input. -/
theorem workerRun_frame (s : AlgoProcess) :
    s.workerRun.provider = s.provider ∧ s.workerRun.inputData = s.inputData ∧
      s.workerRun.scheduled = s.scheduled := by
  rcases s.workerRun_cases with ⟨-, h⟩ | ⟨-, h⟩ | ⟨_, -, _, h⟩ | ⟨_, -, -, h⟩ | ⟨-, h⟩ |
    ⟨_, -, -, h⟩ <;> rw [h] <;> exact ⟨rfl, rfl, rfl⟩

end Steps

/-- What holds between two steps. A job is scheduled with the worker idle only, so that
there is never more than one. -/
structure WellFormed (s : AlgoProcess) : Prop where
  whole : s.provider.recBufferSize = 0 ∨ s.provider.recBufferSize = colorImageSize
  running : s.algoCtrl.algoState = .running ↔ s.worker ≠ .idle
  extremes : s.normalizer.maxIntensity = 0 ∧ s.normalizer.minIntensity = 255

theorem wellFormed_start : start.WellFormed where
  whole := .inl rfl
  running := by simp [start, AlgoCtrlState.init]
  extremes := ⟨rfl, rfl⟩

theorem wellFormed_algoCtrlRun {s : AlgoProcess} (wf : s.WellFormed) :
    s.algoCtrlRun.WellFormed := by
  rcases algoCtrlRun_cases wf.whole with h | ⟨-, hrunning, h⟩ | ⟨-, -, h⟩ <;> rw [h]
  · exact wf
  · exact ⟨wf.whole, by simpa using wf.running.mp hrunning, wf.extremes⟩
  · exact ⟨wf.whole, by simp, wf.extremes⟩

theorem wellFormed_providerRun {s : AlgoProcess} (wf : s.WellFormed)
    (frame : Option ColorImage) : (s.providerRun frame).WellFormed := by
  obtain ⟨provider, hwhole, heq⟩ := s.providerRun_eq frame
  rw [heq]
  exact ⟨hwhole, wf.running, wf.extremes⟩

theorem wellFormed_workerRun {s : AlgoProcess} (wf : s.WellFormed) :
    s.workerRun.WellFormed := by
  have hrunning := wf.running
  rcases s.workerRun_cases with ⟨-, h⟩ | ⟨hw, h⟩ | ⟨l, hw, _, h⟩ | ⟨l, hw, -, h⟩ | ⟨hw, h⟩ |
    ⟨normalizer, -, -, h⟩ <;> rw [h]
  · exact wf
  · exact ⟨wf.whole, by simpa [hw] using hrunning, wf.extremes⟩
  · exact ⟨wf.whole, by simpa [hw] using hrunning, wf.extremes⟩
  · exact ⟨wf.whole, by simpa [hw] using hrunning, wf.extremes⟩
  · exact ⟨wf.whole, by simpa [hw] using hrunning, wf.extremes⟩
  · exact ⟨wf.whole, by simp, rfl, rfl⟩

theorem wellFormed_step (s : AlgoProcess) (action : AlgoAction) (wf : s.WellFormed) :
    (s.step action).WellFormed :=
  step_preserves action wf (fun _ _ => wellFormed_algoCtrlRun wf) (wellFormed_providerRun wf)
    (wellFormed_workerRun wf)

/-- The worker's steps are those that `Process` has for it: it completes the algorithm or
leaves algorithm control alone. -/
theorem workerRun_workerStep {s : AlgoProcess} (wf : s.WellFormed) (p : Process)
    (same : p.algoCtrl = s.algoCtrl) :
    ∃ completes, (p.workerStep completes).algoCtrl = s.workerRun.algoCtrl := by
  rcases s.workerRun_cases with ⟨-, h⟩ | ⟨-, h⟩ | ⟨_, -, _, h⟩ | ⟨_, -, -, h⟩ | ⟨-, h⟩ |
    ⟨normalizer, hw, -, h⟩ <;> rw [h]
  -- only the last of the worker's steps touches the state of the algorithm
  case inr.inr.inr.inr.inr =>
    have hrunning : s.algoCtrl.algoState = .running := wf.running.mpr (by simp [hw])
    exact ⟨true, by simp [Process.workerStep, same, hrunning]⟩
  all_goals exact ⟨false, same⟩

/-- The callback of algorithm control is that of `Process`. -/
theorem algoCtrlRun_process (s : AlgoProcess) (p : Process) (same : p.algoCtrl = s.algoCtrl)
    (sameProvider : p.provider = s.provider) :
    p.algoCtrlRun.algoCtrl = s.algoCtrlRun.algoCtrl := by
  simp only [Process.algoCtrlRun, algoCtrlRun, same, sameProvider]
  split <;> rfl

/-- **One step** keeps the input of a running algorithm if and only if no other frame is
obtained in it. -/
theorem inputKept_iff {s : AlgoProcess} (action : AlgoAction) (wf : s.WellFormed) :
    s.InputKept action ↔ s.FrameRepeats action := by
  by_cases hcrashed : s.worker = .crashed
  · refine ⟨fun _ hobtains => absurd hcrashed hobtains.2.1, fun _ _ => ?_⟩
    rw [step_crashed hcrashed]
  cases action with
  | algoCtrl =>
    rw [InputKept, step_alive hcrashed]
    rcases wf.whole with hempty | hfull
    · refine ⟨fun _ hobtains => ?_, fun _ _ => ?_⟩
      · have hsize := hobtains.2.2
        rw [hempty] at hsize
        exact absurd hsize (Nat.ne_of_lt colorImageSize_pos)
      · show s.algoCtrlRun.inputData = _
        rw [algoCtrlRun_of_empty hempty]
    · constructor
      -- the copy has replaced the input, so keeping it means that the frame was the same
      · intro hkept _ hrunning
        have hinput : s.algoCtrlRun.inputData = s.inputData := hkept hrunning
        rw [algoCtrlRun_of_running hfull hrunning] at hinput
        exact hinput
      · intro hrepeats hrunning
        show s.algoCtrlRun.inputData = _
        rw [algoCtrlRun_of_running hfull hrunning]
        exact hrepeats ⟨rfl, hcrashed, hfull⟩ hrunning
  | provider frame =>
    -- neither the provider nor the worker writes `recBuffer`
    refine ⟨fun _ hobtains => absurd hobtains.1 nofun, fun _ _ => ?_⟩
    obtain ⟨provider, -, heq⟩ := s.providerRun_eq frame
    rw [step_alive hcrashed]
    show (s.providerRun frame).inputData = _
    rw [heq]
    rfl
  | worker =>
    refine ⟨fun _ hobtains => absurd hobtains.1 nofun, fun _ _ => ?_⟩
    rw [step_alive hcrashed]
    exact s.workerRun_frame.2.1

/-! ## The outputs -/

/-- How far the worker is with the grayscale image of a frame. -/
def Progress (frame : ColorImage) (grayscaleImage : GrayscaleImage) : Worker → Prop
  | .creating l => l.bufIndex ≤ colorImageSize ∧ ∃ image,
      (frame.toList.take l.bufIndex).foldl grayscaleBody (locals, image) = (l, grayscaleImage)
  | .normalizing => ∃ image, grayscaleImage = createGrayscaleImage image frame
  | _ => True

/-- What holds of the jobs between two steps, as long as the input is kept. -/
def JobInv (s : AlgoProcess) : Prop :=
  (s.worker = .idle ∧ s.outputs.map some = s.scheduled.map fun job => outputOf job.1 job.2) ∨
  (s.worker ≠ .idle ∧ ∃ done,
    s.scheduled = done ++ [(s.normalizer.averageIntensity, s.inputData)] ∧
    s.outputs.map some = (done.map fun job => outputOf job.1 job.2) ∧
    Progress s.inputData s.normalizer.grayscaleImage s.worker)

theorem jobInv_start : start.JobInv := .inl ⟨rfl, rfl⟩

/-- A callback of algorithm control: a frame obtained in it is the input already, or it
is scheduled. -/
theorem jobInv_algoCtrlRun {s : AlgoProcess} (wf : s.WellFormed) (inv : s.JobInv)
    (alive : s.worker ≠ .crashed) (repeats : s.FrameRepeats .algoCtrl) :
    s.algoCtrlRun.JobInv := by
  rcases algoCtrlRun_cases wf.whole with h | ⟨hfull, hrunning, h⟩ | ⟨-, hother, h⟩
  · rw [h]
    exact inv
  · have hsame : s.provider.recBuffer = s.inputData := repeats ⟨rfl, alive, hfull⟩ hrunning
    -- the copy puts in place what was there
    have hrun : s.algoCtrlRun = s := by
      rw [h, hsame, ← hrunning]
      rfl
    rw [hrun]
    exact inv
  · rw [h]
    rcases inv with ⟨-, hjobs⟩ | ⟨hbusy, -⟩
    · exact .inr ⟨by simp, s.scheduled, rfl, hjobs, trivial⟩
    · exact absurd (wf.running.mpr hbusy) hother

theorem jobInv_providerRun {s : AlgoProcess} (inv : s.JobInv) (frame : Option ColorImage) :
    (s.providerRun frame).JobInv := by
  obtain ⟨provider, -, heq⟩ := s.providerRun_eq frame
  rw [heq]
  exact inv

/-- The worker has read one more byte of its frame. -/
theorem progress_grayscaleBody {frame : ColorImage} {gray : GrayscaleImage} {l : GrayscaleLocals}
    (progress : Progress frame gray (.creating l)) (h : l.bufIndex < colorImageSize) :
    Progress frame (grayscaleBody (l, gray) (frame.get ⟨l.bufIndex, h⟩)).2
      (.creating (grayscaleBody (l, gray) (frame.get ⟨l.bufIndex, h⟩)).1) := by
  obtain ⟨-, image, hfold⟩ := progress
  have hlen := frame.toList_length
  have hnext : (frame.toList.take (l.bufIndex + 1)).foldl grayscaleBody (locals, image) =
      grayscaleBody (l, gray) (frame.get ⟨l.bufIndex, h⟩) := by
    rw [List.take_add_one, List.getElem?_eq_getElem (by omega), Option.toList_some,
      List.foldl_append, hfold, List.foldl_cons, List.foldl_nil, List.Vector.get_eq_get_toList]
    rfl
  have hindex := bufIndex_foldl (frame.toList.take (l.bufIndex + 1)) (locals, image)
  rw [hnext, List.length_take, hlen, locals, Nat.zero_add] at hindex
  refine ⟨?_, image, ?_⟩
  · omega
  · rw [hindex, Nat.min_eq_left h, hnext]

/-- A step of the worker. -/
theorem jobInv_workerRun {s : AlgoProcess} (wf : s.WellFormed) (inv : s.JobInv) :
    s.workerRun.JobInv := by
  rcases inv with ⟨hidle, hjobs⟩ | ⟨hbusy, done, hscheduled, houtputs, hprogress⟩
  · have hrun : s.workerRun = s := by simp [workerRun, hidle]
    rw [hrun]
    exact .inl ⟨hidle, hjobs⟩
  rcases s.workerRun_cases with ⟨-, h⟩ | ⟨-, h⟩ | ⟨l, hw, hbyte, h⟩ | ⟨l, hw, hlast, h⟩ | ⟨-, h⟩ |
    ⟨normalizer, hw, hnormalize, h⟩ <;> rw [h]
  · exact .inr ⟨hbusy, done, hscheduled, houtputs, hprogress⟩
  · -- the loop starts with the grayscale image of the job before
    exact .inr ⟨by simp, done, hscheduled, houtputs, Nat.zero_le _,
      s.normalizer.grayscaleImage, rfl⟩
  · rw [hw] at hprogress
    exact .inr ⟨by simp, done, hscheduled, houtputs, progress_grayscaleBody hprogress hbyte⟩
  · rw [hw] at hprogress
    obtain ⟨-, image, hfold⟩ := hprogress
    rw [List.take_of_length_le (by simpa using hlast)] at hfold
    exact .inr ⟨by simp, done, hscheduled, houtputs, image, (congrArg Prod.snd hfold).symm⟩
  · exact .inr ⟨by simp, done, hscheduled, houtputs, trivial⟩
  · rw [hw] at hprogress
    obtain ⟨image, hgray⟩ := hprogress
    have houtput := normalizeImage_outputOf hgray wf.extremes.1 wf.extremes.2
    rw [hnormalize, Option.map_some] at houtput
    refine .inl ⟨rfl, ?_⟩
    show (s.outputs ++ [normalizer.normalizedImage]).map some = _
    rw [List.map_append, houtputs, hscheduled, List.map_append, List.map_singleton,
      List.map_singleton, ← houtput]

/-- **One step** whose frames repeat the input. -/
theorem jobInv_step {s : AlgoProcess} {action : AlgoAction} (wf : s.WellFormed)
    (inv : s.JobInv) (repeats : s.FrameRepeats action) : (s.step action).JobInv := by
  refine step_preserves action inv ?_ (jobInv_providerRun inv) (jobInv_workerRun wf inv)
  rintro rfl alive
  exact jobInv_algoCtrlRun wf inv alive repeats

theorem JobInv.outputsOfFrames {s : AlgoProcess} (inv : s.JobInv) : s.OutputsOfFrames := by
  rw [OutputsOfFrames]
  rcases inv with ⟨-, houtputs⟩ | ⟨-, done, hscheduled, houtputs, -⟩
  · have hlength := congrArg List.length houtputs
    rw [List.length_map, List.length_map] at hlength
    rw [hlength, List.take_length, houtputs]
  · have hlength := congrArg List.length houtputs
    rw [List.length_map, List.length_map] at hlength
    rw [hscheduled, hlength, List.take_left' rfl, houtputs]

/-- The jobs so far have each found too little in `averageIntensity` to change their
average. -/
def JobsApart (s : AlgoProcess) : Prop := ∀ job ∈ s.scheduled, LeavesAverage job.1 job.2

theorem jobsApart_step {s : AlgoProcess} {action : AlgoAction} (wf : s.WellFormed)
    (apart : s.JobsApart) (next : s.FrameApart action) : (s.step action).JobsApart := by
  refine step_preserves action apart ?_ (fun frame => ?_) ?_
  · rintro rfl alive
    rcases algoCtrlRun_cases wf.whole with h | ⟨-, -, h⟩ | ⟨hfull, hother, h⟩ <;> rw [h]
    · exact apart
    · exact apart
    · intro job hjob
      rcases List.mem_append.mp hjob with hold | hnew
      · exact apart job hold
      · rw [List.mem_singleton.mp hnew]
        exact next ⟨rfl, alive, hfull⟩ hother
  · obtain ⟨provider, -, heq⟩ := s.providerRun_eq frame
    rw [heq]
    exact apart
  · rw [JobsApart, s.workerRun_frame.2.2]
    exact apart

theorem OutputsOfFrames.alone {s : AlgoProcess} (outputs : s.OutputsOfFrames)
    (apart : s.JobsApart) : s.OutputsOfFramesAlone := by
  rw [OutputsOfFramesAlone, outputs]
  apply List.map_congr_left
  intro job hjob
  exact outputOf_eq (apart job (List.mem_of_mem_take hjob))

/-- **Input stability.** In every interleaving the input of the running algorithm is
kept if and only if the frames obtained meanwhile repeat it. The outputs are then those
of the frames scheduled, and of the frames alone where no average is carried over. -/
theorem inputKept_iff_frameRepeats (actions : List AlgoAction) :
    (Along step InputKept start actions ↔ Along step FrameRepeats start actions) ∧
    (Along step FrameRepeats start actions → (run step start actions).OutputsOfFrames) ∧
    (Along step (fun s action => s.FrameRepeats action ∧ s.FrameApart action) start actions →
      (run step start actions).OutputsOfFramesAlone) := by
  refine ⟨?_, fun repeats => ?_, fun repeats => ?_⟩
  · exact along_congr_of_invariant wellFormed_step (fun s action => inputKept_iff action)
      wellFormed_start actions
  · have hpreserved (s : AlgoProcess) (action : AlgoAction) (inv : s.WellFormed ∧ s.JobInv)
        (h : s.FrameRepeats action) : (s.step action).WellFormed ∧ (s.step action).JobInv :=
      ⟨wellFormed_step s action inv.1, jobInv_step inv.1 inv.2 h⟩
    obtain ⟨-, hjobs⟩ :=
      run_invariant_along hpreserved ⟨wellFormed_start, jobInv_start⟩ repeats
    exact hjobs.outputsOfFrames
  · have hpreserved (s : AlgoProcess) (action : AlgoAction)
        (inv : s.WellFormed ∧ s.JobInv ∧ s.JobsApart)
        (h : s.FrameRepeats action ∧ s.FrameApart action) :
        (s.step action).WellFormed ∧ (s.step action).JobInv ∧ (s.step action).JobsApart :=
      ⟨wellFormed_step s action inv.1, jobInv_step inv.1 inv.2.1 h.1,
        jobsApart_step inv.1 inv.2.2 h.2⟩
    have hstart : start.JobsApart := fun job hjob => nomatch hjob
    obtain ⟨-, hjobs, hapart⟩ :=
      run_invariant_along hpreserved ⟨wellFormed_start, jobInv_start, hstart⟩ repeats
    exact hjobs.outputsOfFrames.alone hapart

/-- A second frame, obtained while the first one is being executed, becomes the
input. -/
theorem inputReplaced_whileRunning :
    ¬Along step InputKept start
      [.provider (some (.replicate _ 0)), .algoCtrl, .provider (some (.replicate _ 1)),
        .algoCtrl] := by
  intro ⟨_, _, _, hkept, _⟩
  have hfirst := congrArg List.Vector.toList (hkept (by decide +kernel))
  replace hfirst := congrArg List.head? hfirst
  revert hfirst
  decide +kernel

end AlgoProcess

end PiVision
