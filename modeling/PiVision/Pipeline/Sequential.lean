import PiVision.Pipeline.Contrast
import PiVision.Pipeline.InputStability
import Mathlib.Data.List.Induction

/-!
# The jobs one after the other

The worker reads a frame while the callbacks go on. As long as the frames that are obtained
meanwhile repeat its input, all that can be told of it afterwards is what a process would show
that calls `IMGNORMALGO_exec` on each of the frames scheduled, one after the other: the same
outputs, the same statics, and a division by zero on the same frame.
-/

namespace PiVision

open Machine NormalizerState

/-- A call of `IMGNORMALGO_exec` behind others: the statics, and the outputs so far. -/
def NormalizerState.execNext (r : NormalizerState × List GrayscaleImage) (frame : ColorImage) :
    Option (NormalizerState × List GrayscaleImage) :=
  (r.1.exec frame).map fun next => (next, r.2 ++ [next.normalizedImage])

/-- The calls for these frames in a new process. -/
def NormalizerState.execAll (frames : List ColorImage) :
    Option (NormalizerState × List GrayscaleImage) :=
  frames.foldlM execNext (init, [])

namespace NormalizerState

theorem execAll_concat (frames : List ColorImage) (frame : ColorImage) :
    execAll (frames ++ [frame]) = (execAll frames).bind fun r => execNext r frame := by
  rw [execAll, List.foldlM_append]
  simp only [List.foldlM_cons, List.foldlM_nil, bind_pure]
  rfl

/-- There is an output for each frame. -/
theorem length_execAll {frames : List ColorImage} {r : NormalizerState × List GrayscaleImage}
    (executed : execAll frames = some r) : r.2.length = frames.length := by
  induction frames using List.reverseRecOn generalizing r with
  | nil =>
    obtain rfl := Option.some.inj executed
    rfl
  | append_singleton frames frame ih =>
    rw [execAll_concat, Option.bind_eq_some_iff] at executed
    obtain ⟨r', hbefore, hnext⟩ := executed
    obtain ⟨next, -, rfl⟩ := Option.map_eq_some_iff.mp hnext
    rw [List.length_append, List.length_append, ih hbefore]
    rfl

/-- The last output is what the statics hold. -/
theorem getLast?_execAll {frames : List ColorImage} {r : NormalizerState × List GrayscaleImage}
    (executed : execAll frames = some r) (some_output : r.2 ≠ []) :
    r.2.getLast? = some r.1.normalizedImage := by
  induction frames using List.reverseRecOn with
  | nil =>
    obtain rfl := Option.some.inj executed
    exact absurd rfl some_output
  | append_singleton frames frame =>
    rw [execAll_concat, Option.bind_eq_some_iff] at executed
    obtain ⟨r', -, hnext⟩ := executed
    obtain ⟨next, -, rfl⟩ := Option.map_eq_some_iff.mp hnext
    exact List.getLast?_concat ..

/-- The grayscale image that is there before does not matter to a call. -/
theorem exec_of_gray (base : NormalizerState) (frame : ColorImage) (image : GrayscaleImage) :
    (normalizeImage { base with grayscaleImage := createGrayscaleImage image frame }).map
      resetExtremes = base.exec frame := by
  rw [exec, createGrayscaleImage_congr frame image base.grayscaleImage]

end NormalizerState

namespace AlgoProcess

/-- The frames of the jobs. -/
def frames (s : AlgoProcess) : List ColorImage := s.scheduled.map Prod.snd

/-- The process is where one that executes the jobs one after the other would be. A job under
way has touched the grayscale image only, and one that has divided by zero would do so there. -/
def InSequence (s : AlgoProcess) : Prop :=
  match s.worker with
  | .idle => execAll s.frames = some (s.normalizer, s.outputs)
  | .crashed => ∃ done frame base, s.frames = done ++ [frame] ∧
      execAll done = some (base, s.outputs) ∧ base.exec frame = none
  | worker => ∃ done base image, s.frames = done ++ [s.inputData] ∧
      execAll done = some (base, s.outputs) ∧
      s.normalizer = { base with grayscaleImage := image } ∧ Progress s.inputData image worker

variable {s : AlgoProcess}

theorem inSequence_start : start.InSequence := rfl

/-- While a job is under way. -/
theorem inSequence_of_busy {worker : Worker} (hworker : s.worker = worker)
    (busy : worker ≠ .idle) (alive : worker ≠ .crashed) {done : List ColorImage}
    {base : NormalizerState} {image : GrayscaleImage} (hframes : s.frames = done ++ [s.inputData])
    (executed : execAll done = some (base, s.outputs))
    (touched : s.normalizer = { base with grayscaleImage := image })
    (progress : Progress s.inputData image worker) : s.InSequence := by
  unfold InSequence
  rw [hworker]
  cases worker with
  | idle => exact absurd rfl busy
  | crashed => exact absurd rfl alive
  | queued => exact ⟨done, base, image, hframes, executed, touched, progress⟩
  | creating l => exact ⟨done, base, image, hframes, executed, touched, progress⟩
  | normalizing => exact ⟨done, base, image, hframes, executed, touched, progress⟩

theorem InSequence.idle (inv : s.InSequence) (idle : s.worker = .idle) :
    execAll s.frames = some (s.normalizer, s.outputs) := by
  unfold InSequence at inv
  rwa [idle] at inv

theorem InSequence.crashed (inv : s.InSequence) (crashed : s.worker = .crashed) :
    ∃ done frame base, s.frames = done ++ [frame] ∧ execAll done = some (base, s.outputs) ∧
      base.exec frame = none := by
  unfold InSequence at inv
  rwa [crashed] at inv

theorem InSequence.busy (inv : s.InSequence) (busy : s.worker ≠ .idle)
    (alive : s.worker ≠ .crashed) :
    ∃ done base image, s.frames = done ++ [s.inputData] ∧ execAll done = some (base, s.outputs) ∧
      s.normalizer = { base with grayscaleImage := image } ∧
      Progress s.inputData image s.worker := by
  unfold InSequence at inv
  cases hworker : s.worker with
  | idle => exact absurd hworker busy
  | crashed => exact absurd hworker alive
  | queued => rwa [hworker] at inv
  | creating l => rwa [hworker] at inv
  | normalizing => rwa [hworker] at inv

/-- What neither the worker nor its input see does not matter. -/
theorem InSequence.congr {provider : ImageProviderState} (inv : s.InSequence) :
    InSequence { s with provider := provider } := inv

/-- A callback of algorithm control: a frame obtained in it is the input already, or it
is scheduled behind the others. -/
theorem inSequence_algoCtrlRun (wf : s.WellFormed) (inv : s.InSequence)
    (alive : s.worker ≠ .crashed) (repeats : s.FrameRepeats .algoCtrl) :
    s.algoCtrlRun.InSequence := by
  rcases algoCtrlRun_cases wf.whole with h | ⟨hfull, hrunning, h⟩ | ⟨-, hother, h⟩
  · rw [h]
    exact inv
  · have hsame : s.provider.recBuffer = s.inputData := repeats ⟨rfl, alive, hfull⟩ hrunning
    -- the copy puts in place what was there
    have hrun : s.algoCtrlRun = s := by
      rw [h, hsame, ← hrunning]
      rfl
    rw [hrun]
    exact inv
  · have hidle : s.worker = .idle := by
      by_contra hbusy
      exact hother (wf.running.mpr hbusy)
    rw [h]
    -- the job begins with the statics as the one before has left them
    have htouched : s.normalizer =
      { s.normalizer with grayscaleImage := s.normalizer.grayscaleImage } := rfl
    refine inSequence_of_busy rfl (by rintro ⟨⟩) (by rintro ⟨⟩) ?_ (inv.idle hidle) htouched
      trivial
    rw [frames, List.map_append]
    rfl

/-- A step of the worker: the last one of a job is the call of `IMGNORMALGO_exec` that stands
there in the sequence. -/
theorem inSequence_workerRun (inv : s.InSequence) : s.workerRun.InSequence := by
  rcases s.workerRun_cases with ⟨-, h⟩ | ⟨hw, h⟩ | ⟨l, hw, hbyte, h⟩ | ⟨l, hw, hlast, h⟩ | ⟨hw, h⟩ |
    ⟨normalizer, hw, hnormalize, h⟩
  case inl =>
    rw [h]
    exact inv
  all_goals
    obtain ⟨done, base, image, hframes, hexecuted, htouched, hprogress⟩ :=
      inv.busy (by rw [hw]; rintro ⟨⟩) (by rw [hw]; rintro ⟨⟩)
    rw [hw] at hprogress
    rw [h]
  · have hnext : Progress s.inputData image (.creating locals) := ⟨Nat.zero_le _, image, rfl⟩
    exact inSequence_of_busy (s := { s with worker := .creating locals }) rfl (by rintro ⟨⟩)
      (by rintro ⟨⟩) hframes hexecuted htouched hnext
  · have hgray : s.normalizer.grayscaleImage = image := by rw [htouched]
    have hnext := progress_grayscaleBody hprogress hbyte
    rw [← hgray] at hnext
    refine inSequence_of_busy rfl (by rintro ⟨⟩) (by rintro ⟨⟩) hframes hexecuted ?_ hnext
    rw [htouched]
  · obtain ⟨-, image', hfold⟩ := hprogress
    rw [List.take_of_length_le (by simpa using hlast)] at hfold
    exact inSequence_of_busy (s := { s with worker := .normalizing }) rfl (by rintro ⟨⟩)
      (by rintro ⟨⟩) hframes hexecuted htouched ⟨image', (congrArg Prod.snd hfold).symm⟩
  · have hnone : normalizeImage s.normalizer = none := by
      cases hnormalize : normalizeImage s.normalizer with
      | none => rfl
      | some normalizer => simp [workerRun, hw, hnormalize] at h
    obtain ⟨image', rfl⟩ := hprogress
    refine ⟨done, s.inputData, base, hframes, hexecuted, ?_⟩
    rw [← exec_of_gray base s.inputData image', ← htouched, hnone, Option.map_none]
  · obtain ⟨image', rfl⟩ := hprogress
    have hexec : base.exec s.inputData = some (resetExtremes normalizer) := by
      rw [← exec_of_gray base s.inputData image', ← htouched, hnormalize, Option.map_some]
    show execAll s.frames =
      some (resetExtremes normalizer, s.outputs ++ [normalizer.normalizedImage])
    rw [hframes, execAll_concat, hexecuted, Option.bind_some, execNext, hexec]
    rfl

/-- **One step** whose frames repeat the input. -/
theorem inSequence_step {action : AlgoAction} (wf : s.WellFormed) (inv : s.InSequence)
    (repeats : s.FrameRepeats action) : (s.step action).InSequence := by
  refine step_preserves action inv ?_ (fun frame => ?_) (inSequence_workerRun inv)
  · rintro rfl alive
    exact inSequence_algoCtrlRun wf inv alive repeats
  · obtain ⟨provider, -, heq⟩ := s.providerRun_eq frame
    rw [heq]
    exact inv.congr

/-- What has been put out is what the frames give one after the other, as far as their jobs
have been completed. -/
theorem InSequence.executed (inv : s.InSequence) :
    ∃ last, execAll (s.frames.take s.outputs.length) = some (last, s.outputs) := by
  by_cases hidle : s.worker = .idle
  · have hexecuted := inv.idle hidle
    have hlength := length_execAll hexecuted
    rw [hlength, List.take_length]
    exact ⟨_, hexecuted⟩
  · obtain ⟨done, frame, base, hframes, hexecuted⟩ : ∃ done frame base,
        s.frames = done ++ [frame] ∧ execAll done = some (base, s.outputs) := by
      by_cases hcrashed : s.worker = .crashed
      · obtain ⟨done, frame, base, hframes, hexecuted, -⟩ := inv.crashed hcrashed
        exact ⟨done, frame, base, hframes, hexecuted⟩
      · obtain ⟨done, base, -, hframes, hexecuted, -⟩ := inv.busy hidle hcrashed
        exact ⟨done, s.inputData, base, hframes, hexecuted⟩
    have hlength := length_execAll hexecuted
    rw [hframes, hlength, List.take_left' rfl]
    exact ⟨base, hexecuted⟩

/-! ## A job from its start to its end -/

section Job

/-- How many steps a call that does not crash has before it at most. -/
def callRank : Worker → ℕ
  | .queued => colorImageSize + 3
  | .creating l => colorImageSize - l.bufIndex + 2
  | .normalizing => 1
  | .idle | .crashed => 0

theorem callRank_workerRun (p : AlgoProcess) (busy : p.worker ≠ .idle)
    (alive : p.worker ≠ .crashed) : callRank p.workerRun.worker < callRank p.worker := by
  rcases p.workerRun_cases with ⟨hw | hw, -⟩ | ⟨hw, h⟩ | ⟨l, hw, hlt, h⟩ | ⟨l, hw, hle, h⟩ |
    ⟨hw, h⟩ | ⟨normalizer, hw, -, h⟩
  · exact absurd hw busy
  · exact absurd hw alive
  · rw [h, hw]
    exact Nat.lt_succ_self _
  · rw [h, hw]
    have hindex := bufIndex_foldl [p.inputData.get ⟨l.bufIndex, hlt⟩]
      (l, p.normalizer.grayscaleImage)
    rw [List.foldl_cons, List.foldl_nil, List.length_singleton] at hindex
    simp only [callRank, hindex]
    omega
  · rw [h, hw]
    simp only [callRank]
    omega
  · rw [h, hw]
    exact Nat.one_pos
  · rw [h, hw]
    exact Nat.one_pos

/-- The single worker has made one step of a call that is under way, and lived. -/
def Works (p q : AlgoProcess) : Prop :=
  p.worker ≠ .idle ∧ q.worker ≠ .crashed ∧ q = p.workerRun

/-- The loop of `createGrayscaleImage`, from any of its rounds on. -/
theorem works_creating {p : AlgoProcess} {l : GrayscaleLocals} (creating : p.worker = .creating l)
    (bound : l.bufIndex ≤ colorImageSize) :
    Relation.ReflTransGen Works p { p with
      worker := .normalizing
      normalizer := { p.normalizer with
        grayscaleImage := ((p.inputData.toList.drop l.bufIndex).foldl grayscaleBody
          (l, p.normalizer.grayscaleImage)).2 } } := by
  have hsize : p.inputData.toList.length = colorImageSize := p.inputData.toList_length
  have hbusy : p.worker ≠ .idle := by
    rw [creating]
    rintro ⟨⟩
  induction hd : colorImageSize - l.bufIndex generalizing p l with
  | zero =>
    have hdrop : p.inputData.toList.drop l.bufIndex = [] := List.drop_eq_nil_of_le (by omega)
    refine .single ⟨hbusy, by rintro ⟨⟩, ?_⟩
    rw [workerRun, creating]
    simp only [dif_neg (show ¬l.bufIndex < colorImageSize by omega), hdrop, List.foldl_nil]
  | succ d ih =>
    have hlt : l.bufIndex < colorImageSize := by omega
    have hdrop : p.inputData.toList.drop l.bufIndex =
        p.inputData.get ⟨l.bufIndex, hlt⟩ :: p.inputData.toList.drop (l.bufIndex + 1) := by
      rw [List.drop_eq_getElem_cons (by omega), List.Vector.get_eq_get_toList]
      rfl
    generalize hbody : grayscaleBody (l, p.normalizer.grayscaleImage)
      (p.inputData.get ⟨l.bufIndex, hlt⟩) = next
    have hindex : next.1.bufIndex = l.bufIndex + 1 := by
      have hone := bufIndex_foldl [p.inputData.get ⟨l.bufIndex, hlt⟩]
        (l, p.normalizer.grayscaleImage)
      rwa [List.foldl_cons, List.foldl_nil, hbody] at hone
    have hstep : p.workerRun = { p with
        worker := .creating next.1
        normalizer := { p.normalizer with grayscaleImage := next.2 } } := by
      rw [workerRun, creating]
      simp only [dif_pos hlt, hbody]
    have hrest := ih (p := p.workerRun) (l := next.1) (by rw [hstep]) (by omega)
      (by rw [hstep]; exact hsize) (by rw [hstep]; rintro ⟨⟩) (by omega)
    refine .head ⟨hbusy, by rw [hstep]; rintro ⟨⟩, rfl⟩ ?_
    rw [hstep] at hrest ⊢
    rw [hdrop, List.foldl_cons, hbody]
    rw [hindex] at hrest
    exact hrest

/-- A call that completes goes from its start to its end without a crash. -/
theorem works_of_exec {p : AlgoProcess} {after : NormalizerState} (queued : p.worker = .queued)
    (completes : exec p.normalizer p.inputData = some after) :
    Relation.ReflTransGen Works p { p with
      worker := .idle
      normalizer := after
      algoCtrl := { p.algoCtrl with algoState := .complete }
      outputs := p.outputs ++ [after.normalizedImage] } := by
  have hbegin : p.workerRun = { p with worker := .creating locals } := by
    rw [workerRun, queued]
  obtain ⟨normalized, hnormalize, rfl⟩ := Option.map_eq_some_iff.mp completes
  have hfirst : Works p p.workerRun := by
    refine ⟨by rw [queued]; rintro ⟨⟩, ?_, rfl⟩
    rw [hbegin]
    rintro ⟨⟩
  have hloop := works_creating (p := p.workerRun) (l := locals) (by rw [hbegin]) (Nat.zero_le _)
  rw [hbegin] at hfirst hloop
  refine .head hfirst (.tail hloop ⟨by rintro ⟨⟩, by rintro ⟨⟩, ?_⟩)
  have hsame : normalizeImage { p.normalizer with
      grayscaleImage := ((p.inputData.toList.drop locals.bufIndex).foldl grayscaleBody
        (locals, p.normalizer.grayscaleImage)).2 } = some normalized := hnormalize
  simp only [workerRun, AlgoProcess.inputData] at hsame ⊢
  rw [hsame]
  rfl

/-- A call that completes is over when the worker has made so many steps as it has before it at
most: an idle worker does nothing. -/
theorem iterate_workerRun {p q : AlgoProcess} (works : Relation.ReflTransGen Works p q)
    (idle : q.worker = .idle) {n : ℕ} (enough : callRank p.worker ≤ n) :
    workerRun^[n] p = q := by
  induction works using Relation.ReflTransGen.head_induction_on generalizing n with
  | refl => exact Function.iterate_fixed (by rw [workerRun, idle]) n
  | @head p next first _ ih =>
    obtain ⟨hbusy, halive, rfl⟩ := first
    have hpalive : p.worker ≠ .crashed := by
      intro hcrashed
      rw [workerRun, hcrashed] at halive
      exact halive hcrashed
    have hless := callRank_workerRun p hbusy hpalive
    obtain ⟨k, rfl⟩ : ∃ k, n = k + 1 := ⟨n - 1, by omega⟩
    exact ih (by omega)

/-- The worker's step of an interleaving. -/
theorem step_worker (p : AlgoProcess) : p.step .worker = p.workerRun := by
  by_cases hcrashed : p.worker = .crashed
  · rw [step_crashed hcrashed, workerRun, hcrashed]
  · rw [step_alive hcrashed]

theorem run_worker (p : AlgoProcess) (n : ℕ) :
    run step p (List.replicate n .worker) = workerRun^[n] p := by
  induction n generalizing p with
  | zero => rfl
  | succ n ih => rw [List.replicate_succ, run_cons, step_worker, ih, Function.iterate_succ_apply]

end Job

/-- **The jobs are as if executed one after the other** in every interleaving in which the
frames obtained while one is executed repeat it. -/
theorem inSequence_run (actions : List AlgoAction)
    (repeats : Along step FrameRepeats start actions) :
    (run step start actions).InSequence := by
  have hpreserved (s : AlgoProcess) (action : AlgoAction) (inv : s.WellFormed ∧ s.InSequence)
      (h : s.FrameRepeats action) : (s.step action).WellFormed ∧ (s.step action).InSequence :=
    ⟨wellFormed_step s action inv.1, inSequence_step inv.1 inv.2 h⟩
  exact (run_invariant_along hpreserved ⟨wellFormed_start, inSequence_start⟩ repeats).2

/-! ### A frame that comes twice -/

/-- The process when the frame of two halves has been scheduled. -/
def halvesScheduled : AlgoProcess where
  provider := ⟨halves, colorImageSize⟩
  algoCtrl := ⟨halves, .running⟩
  worker := .queued
  normalizer := .init
  scheduled := [(0, halves)]
  outputs := []

theorem step_provider_of_same {s : AlgoProcess} (same : s.provider = ⟨halves, colorImageSize⟩)
    (alive : s.worker ≠ .crashed) : s.step (.provider (some halves)) = s := by
  rw [step_alive alive]
  show { s with provider := _ } = s
  rw [← same]

theorem step_algoCtrl_of_same {s : AlgoProcess} (same : s.provider = ⟨halves, colorImageSize⟩)
    (running : s.algoCtrl = ⟨halves, .running⟩) (alive : s.worker ≠ .crashed) :
    s.step .algoCtrl = s := by
  obtain ⟨provider, algoCtrl, worker, normalizer, scheduled, outputs⟩ := s
  obtain rfl : provider = _ := same
  obtain rfl : algoCtrl = _ := running
  rw [step_alive alive]
  exact algoCtrlRun_of_running rfl rfl

theorem step_start_halves : (start.step (.provider (some halves))).step .algoCtrl =
    halvesScheduled := by
  have halive : start.worker ≠ .crashed := by rintro ⟨⟩
  rw [step_alive halive]
  show (start.providerRun (some halves)).step .algoCtrl = _
  rw [step_alive (by rintro ⟨⟩)]
  show (start.providerRun (some halves)).algoCtrlRun = _
  rw [algoCtrlRun_of_other rfl (by rintro ⟨⟩)]
  rfl

/-- The frame of two halves, obtained once more while it is executed, and its job up to the
end. -/
def halvesTwice : List AlgoAction :=
  [.provider (some halves), .algoCtrl, .worker, .provider (some halves), .algoCtrl] ++
    .replicate (colorImageSize + 2) .worker

theorem along_halvesTwice : Along step FrameRepeats start halvesTwice ∧
    (run step start halvesTwice).outputs =
      [(normalized (grayscale halves) 101).normalizedImage] := by
  generalize hp : halvesScheduled.workerRun = p
  have hbegun : p = { halvesScheduled with worker := .creating locals } := hp.symm
  have hprovider : p.provider = ⟨halves, colorImageSize⟩ := by rw [hbegun, halvesScheduled]
  have hrunning : p.algoCtrl = ⟨halves, .running⟩ := by rw [hbegun, halvesScheduled]
  have halive : p.worker ≠ .crashed := by rw [hbegun]; rintro ⟨⟩
  have hother (s : AlgoProcess) (action : AlgoAction) (other : action ≠ .algoCtrl) :
      s.FrameRepeats action := fun obtains => absurd obtains.1 other
  have henough : callRank halvesScheduled.worker ≤ colorImageSize + 2 + 1 := Nat.le_refl _
  have hdone := iterate_workerRun (works_of_exec (p := halvesScheduled) rfl exec_halves) rfl henough
  rw [Function.iterate_succ_apply, hp] at hdone
  rw [halvesTwice, along_append, run_append, run_worker]
  simp only [along_cons, along_nil, run_cons, run_nil, step_start_halves, step_worker, hp,
    step_provider_of_same hprovider halive, step_algoCtrl_of_same hprovider hrunning halive, hdone]
  refine ⟨⟨⟨hother _ _ (by rintro ⟨⟩), ?_, hother _ _ (by rintro ⟨⟩), hother _ _ (by rintro ⟨⟩),
    ?_, trivial⟩, ?_⟩, rfl⟩
  · -- nothing is running when the frame comes for the first time
    exact fun _ running => absurd running (by rw [step_alive (by rintro ⟨⟩)]; rintro ⟨⟩)
  · intro _ _
    rw [inputData, hprovider, hrunning]
  · exact along_of_forall_mem (fun s action hworker => hother s action (by
      rw [hworker]
      rintro ⟨⟩)) _ fun action hmem => List.eq_of_mem_replicate hmem

theorem inSequence_halvesTwice : (run step start halvesTwice).InSequence ∧
    (run step start halvesTwice).outputs =
      [(normalized (grayscale halves) 101).normalizedImage] := by
  obtain ⟨hrepeats, houtputs⟩ := along_halvesTwice
  generalize halvesTwice = actions at hrepeats houtputs ⊢
  exact ⟨inSequence_run actions hrepeats, houtputs⟩

end AlgoProcess

end PiVision
