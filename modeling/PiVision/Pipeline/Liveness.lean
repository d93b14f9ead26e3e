import PiVision.Pipeline.Stall

/-!
# Every frame that is scheduled in time is put out

Seen from the pool, a run of the process is a run of the pool in which the steps of the
calls take no time: each call ends after as many steps of its thread as its frame has
bytes, and a few. So the pool's fairness is that of the process, and with the job of a
frame its output is there in the end.
-/

namespace PiVision

open Machine NormalizerState

namespace PooledProcess

open AlgoProcess (Works works_of_exec callRank callRank_workerRun)

variable {s : PooledProcess}

/-- The step is no spurious wake-up, and a frame that is scheduled in it finds room for a
thread, or a thread that is not between its last pop and the reset of `busy`. -/
def InTime (s : PooledProcess) : PooledAction → Prop
  | .algoCtrl => s.pool.schedStage = .idle → (s.algoCtrl.run s.provider).2.schedules = true →
      s.pool.HasRoom ∨ ∃ t ∈ s.pool.threads, t.stage ≠ .emptied
  | .provider _ | .scan | .thread _ => True
  | .spurious _ => False

/-- A step of a thread that does not exist. -/
def noAction (s : PooledProcess) : ThreadPoolAction Unit := .thread s.pool.threads.length

/-- What a step is for the pool. -/
def poolAction (s : PooledProcess) : PooledAction → ThreadPoolAction Unit
  | .algoCtrl =>
    if s.pool.schedStage = .idle ∧ (s.algoCtrl.run s.provider).2.schedules = true then .sched ()
    else s.noAction
  | .provider _ => s.noAction
  | .scan => .scan
  | .thread index =>
    match s.pool.threads[index]? with
    | some ⟨_, .executing item⟩ =>
      if s.calls item.number = .idle then .thread index else s.noAction
    | _ => .thread index
  | .spurious index => .spurious index

/-- The thread executes a call that is not back. -/
def UnderWay (s : PooledProcess) (index : ℕ) : Prop :=
  ∃ busy item, s.pool.threads[index]? = some ⟨busy, .executing item⟩ ∧
    s.calls item.number ≠ .idle

theorem threadRun_of_executing {index : ℕ} {busy : Bool} {item : QueueItem Unit}
    (found : s.pool.threads[index]? = some ⟨busy, .executing item⟩)
    (underWay : s.calls item.number ≠ .idle) :
    s.threadRun index = s.callRun item.number ∧ s.poolAction (.thread index) = s.noAction := by
  simp only [threadRun, poolAction, found, if_neg underWay, and_self]

theorem threadRun_of_not_underWay {index : ℕ} (other : ¬s.UnderWay index) :
    s.threadRun index = { s with pool := s.pool.poolThreadFunc index } ∧
      s.poolAction (.thread index) = .thread index := by
  cases hfound : s.pool.threads[index]? with
  | none => simp only [threadRun, poolAction, hfound, and_self]
  | some t =>
    obtain ⟨busy, stage⟩ := t
    cases stage with
    | executing item =>
      have hback : s.calls item.number = .idle := by
        by_contra h
        exact other ⟨busy, item, hfound, h⟩
      simp only [threadRun, poolAction, hfound, if_pos hback, and_self]
    | popping | emptied | available | waiting =>
      simp only [threadRun, poolAction, hfound, and_self]

theorem step_noAction (s : PooledProcess) : s.pool.step s.noAction = s.pool := by
  have hnone : s.pool.threads[s.pool.threads.length]? = none :=
    List.getElem?_eq_none_iff.mpr (Nat.le_refl _)
  show s.pool.poolThreadFunc _ = _
  rw [ThreadContext.poolThreadFunc, hnone]

/-- Only a step of a thread is one for the pool. -/
theorem poolAction_ne {action : PooledAction} {index : ℕ} (other : action ≠ .thread index)
    (exists_thread : index < s.pool.threads.length) : s.poolAction action ≠ .thread index := by
  have hnone : s.noAction ≠ .thread index := by
    intro h
    exact absurd (ThreadPoolAction.thread.inj h) (by omega)
  cases action with
  | algoCtrl =>
    rw [poolAction]
    split
    · exact nofun
    · exact hnone
  | provider => exact hnone
  | scan | spurious => exact nofun
  | thread j =>
    by_cases hunderWay : s.UnderWay j
    · obtain ⟨busy, item, hfound, hcall⟩ := hunderWay
      rw [(threadRun_of_executing hfound hcall).2]
      exact hnone
    · rw [(threadRun_of_not_underWay hunderWay).2]
      intro h
      exact other (congrArg PooledAction.thread (ThreadPoolAction.thread.inj h))

theorem inTime_poolAction {action : PooledAction} (inTime : s.InTime action) :
    s.pool.InTime (s.poolAction action) := by
  cases action with
  | algoCtrl =>
    rw [poolAction]
    split
    · rename_i h
      exact fun _ => inTime h.1 h.2
    · trivial
  | provider | scan => trivial
  | thread index =>
    by_cases hunderWay : s.UnderWay index
    · obtain ⟨busy, item, hfound, hcall⟩ := hunderWay
      rw [(threadRun_of_executing hfound hcall).2]
      trivial
    · rw [(threadRun_of_not_underWay hunderWay).2]
      trivial
  | spurious index => exact inTime.elim

/-- The pool makes the steps that it is said to make. -/
theorem pool_step (alive : s.crashed = false) (action : PooledAction) :
    (s.step action).pool = s.pool.step (s.poolAction action) := by
  rw [step_of_alive alive]
  cases action with
  | algoCtrl =>
    by_cases hidle : s.pool.schedStage = .idle
    · simp only [poolAction, if_pos hidle]
      cases hschedules : (s.algoCtrl.run s.provider).2.schedules with
      | true =>
        rw [(algoCtrlRun_of_schedules hschedules).1, if_pos ⟨hidle, rfl⟩]
        rfl
      | false =>
        rw [(algoCtrlRun_of_drops hschedules).1, if_neg (fun h => Bool.false_ne_true h.2),
          step_noAction]
    · have hboth : ¬(s.pool.schedStage = .idle ∧ (s.algoCtrl.run s.provider).2.schedules = true) :=
        fun h => hidle h.1
      simp only [poolAction, if_neg hidle, if_neg hboth, step_noAction]
  | provider frame =>
    rw [poolAction, step_noAction]
    by_cases hidle : s.pool.schedStage = .idle
    · simp only [if_pos hidle]
      rfl
    · simp only [if_neg hidle]
  | scan => rfl
  | thread index =>
    show (s.threadRun index).pool = _
    by_cases hunderWay : s.UnderWay index
    · obtain ⟨busy, item, hfound, hcall⟩ := hunderWay
      obtain ⟨hrun, haction⟩ := threadRun_of_executing hfound hcall
      rw [hrun, haction, step_noAction]
      rfl
    · obtain ⟨hrun, haction⟩ := threadRun_of_not_underWay hunderWay
      rw [hrun, haction]
      rfl
  | spurious index => rfl

/-! ## A call ends -/

/-- The call of a thread gets on when its thread makes a step. -/
theorem callRank_callRun (inv : s.Inv) (alive : s.crashed = false) {item : QueueItem Unit}
    (executing : item ∈ s.pool.executing) (underWay : s.calls item.number ≠ .idle) :
    callRank ((s.callRun item.number).calls item.number) < callRank (s.calls item.number) := by
  have hlast := inv.last_of_executing executing underWay
  have hlt := inv.each.number_lt (inv.each.mem_pushed_of_executing executing)
  have hworker : s.worker = s.calls item.number := by
    rw [worker_of_pushed alive (List.ne_nil_of_length_pos (by omega)), hlast]
  have hlives : s.calls item.number ≠ .crashed := by
    rw [← hworker]
    exact inv.alive alive
  show callRank (Function.update s.calls item.number _ item.number) < _
  rw [Function.update_self]
  exact callRank_workerRun (s.withWorker (s.calls item.number)) underWay hlives

/-- No step puts a call back. -/
theorem callRank_step (inv : s.Inv) (alive : s.crashed = false) (action : PooledAction)
    (n : ℕ) : callRank ((s.step action).calls n) ≤ callRank (s.calls n) := by
  rw [step_of_alive alive]
  cases action with
  | algoCtrl =>
    by_cases hidle : s.pool.schedStage = .idle
    · simp only [if_pos hidle]
      cases hschedules : (s.algoCtrl.run s.provider).2.schedules with
      | true => rw [(algoCtrlRun_of_schedules hschedules).1]
      | false => rw [(algoCtrlRun_of_drops hschedules).1]
    · simp only [if_neg hidle, le_refl]
  | provider frame =>
    by_cases hidle : s.pool.schedStage = .idle
    · simp only [if_pos hidle]
      exact le_refl _
    · simp only [if_neg hidle, le_refl]
  | scan | spurious => exact le_refl _
  | thread index =>
    show callRank ((s.threadRun index).calls n) ≤ _
    by_cases hunderWay : s.UnderWay index
    · obtain ⟨busy, item, hfound, hcall⟩ := hunderWay
      rw [(threadRun_of_executing hfound hcall).1]
      by_cases hsame : n = item.number
      · rw [hsame]
        exact (callRank_callRun inv alive (ThreadContext.mem_executing hfound) hcall).le
      · show callRank (Function.update s.calls item.number _ n) ≤ _
        rw [Function.update_of_ne hsame]
    · rw [(threadRun_of_not_underWay hunderWay).1]

/-! ## Along a fair run -/

/-- The caller of `sched_job` and every thread make a step again and again. -/
structure Fair (schedule : ℕ → PooledAction) : Prop where
  scan : ∀ n, ∃ m, n ≤ m ∧ schedule m = .scan
  thread : ∀ index n, ∃ m, n ≤ m ∧ schedule m = .thread index

/-- The process before each step of a run. -/
abbrev processAt (schedule : ℕ → PooledAction) : ℕ → PooledProcess := stateAt step start schedule

/-- A run in which every frame that is scheduled is scheduled in time, and no call divides by
zero. -/
structure InTimeRun (schedule : ℕ → PooledAction) : Prop where
  inTime : ∀ n, (processAt schedule n).InTime (schedule n)
  alive : ∀ n, (processAt schedule n).crashed = false

variable {schedule : ℕ → PooledAction}

/-- What the run is for the pool. -/
def poolSchedule (schedule : ℕ → PooledAction) (n : ℕ) : ThreadPoolAction Unit :=
  (processAt schedule n).poolAction (schedule n)

theorem inv_processAt (schedule : ℕ → PooledAction) (n : ℕ) : (processAt schedule n).Inv :=
  stateAt_invariant (P := fun _ _ => True) (fun s action inv _ => (inv_step s action inv).1)
    inv_start (fun _ => trivial) n

theorem pool_processAt (run : InTimeRun schedule) (n : ℕ) :
    (processAt schedule n).pool =
      ThreadContext.contextAt (.initThreadPool numAlgorithms) (poolSchedule schedule) n := by
  induction n with
  | zero => rfl
  | succ n ih =>
    rw [processAt, stateAt_succ, pool_step (run.alive n), ThreadContext.contextAt, stateAt_succ]
    exact congrArg (fun c => ThreadContext.step c (poolSchedule schedule n)) ih

theorem inTimeRun_pool (run : InTimeRun schedule) :
    ThreadContext.InTimeRun (.initThreadPool numAlgorithms) (poolSchedule schedule) where
  each := ThreadContext.eachOnce_initThreadPool numAlgorithms
  attended := ThreadContext.attended_initThreadPool numAlgorithms
  inTime n := by
    rw [← pool_processAt run]
    exact inTime_poolAction (run.inTime n)

/-- A thread that executes a call comes to the step behind it. -/
theorem exists_back (run : InTimeRun schedule) (fair : Fair schedule) {index n : ℕ}
    {item : QueueItem Unit}
    (found : (processAt schedule n).pool.threads[index]? = some ⟨true, .executing item⟩) :
    ∃ m, n ≤ m ∧ poolSchedule schedule m = .thread index := by
  induction hrank : callRank ((processAt schedule n).calls item.number) using Nat.strongRecOn
    generalizing n with
  | ind r ih =>
    -- until its own next step the thread stays where it is, and its call gets no longer
    obtain ⟨m, hm, hown, hfound, hle⟩ :=
      holds_until (A := fun action : PooledAction => action = .thread index)
        (Q := fun s : PooledProcess => s.pool.threads[index]? = some ⟨true, .executing item⟩ ∧
          callRank (s.calls item.number) ≤ r)
        (fun m _ hother hkept => by
          have hlt := (List.getElem?_eq_some_iff.mp hkept.1).1
          have hinTime := inTime_poolAction (run.inTime m)
          have hrank' := callRank_step (inv_processAt schedule m) (run.alive m) (schedule m)
            item.number
          rw [stateAt_succ, pool_step (run.alive m)]
          exact ⟨ThreadContext.getElem?_step (poolAction_ne hother hlt) hinTime rfl hkept.1,
            hrank'.trans hkept.2⟩)
        ⟨found, hrank.le⟩ (fair.thread index n)
    by_cases hunderWay : (processAt schedule m).UnderWay index
    · obtain ⟨busy, other, hother, hcall⟩ := hunderWay
      obtain ⟨rfl, rfl⟩ : true = busy ∧ item = other := by
        have hsame := Option.some.inj (hfound.symm.trans hother)
        cases hsame
        exact ⟨rfl, rfl⟩
      obtain ⟨hrun, haction⟩ := threadRun_of_executing hfound hcall
      have hfound' : (processAt schedule (m + 1)).pool.threads[index]? =
          some ⟨true, .executing item⟩ := by
        rw [processAt, stateAt_succ, pool_step (run.alive m), hown, haction, step_noAction]
        exact hfound
      have hless : callRank ((processAt schedule (m + 1)).calls item.number) < r := by
        refine lt_of_lt_of_le ?_ hle
        rw [processAt, stateAt_succ, step_of_alive (run.alive m), hown]
        show callRank ((threadRun _ index).calls item.number) < _
        rw [hrun]
        exact callRank_callRun (inv_processAt schedule m) (run.alive m)
          (ThreadContext.mem_executing hfound) hcall
      obtain ⟨k, hk, hback⟩ := ih _ hless hfound' rfl
      exact ⟨k, by omega, hback⟩
    · exact ⟨m, hm, by rw [poolSchedule, hown, (threadRun_of_not_underWay hunderWay).2]⟩

/-- What is fair to the process is fair to its pool. -/
theorem fair_poolSchedule (run : InTimeRun schedule) (fair : Fair schedule) :
    ThreadContext.Fair (poolSchedule schedule) where
  scan n := by
    obtain ⟨m, hm, hscan⟩ := fair.scan n
    exact ⟨m, hm, by rw [poolSchedule, hscan]; rfl⟩
  thread index n := by
    obtain ⟨m, hm, hown⟩ := fair.thread index n
    by_cases hunderWay : (processAt schedule m).UnderWay index
    · obtain ⟨busy, item, hfound, -⟩ := hunderWay
      have hbusy : busy = true := by
        rw [pool_processAt run] at hfound
        exact ((inTimeRun_pool run).attended_at m).get hfound
      obtain ⟨k, hk, hback⟩ := exists_back run fair (hbusy ▸ hfound)
      exact ⟨k, hm.trans hk, hback⟩
    · exact ⟨m, hm, by rw [poolSchedule, hown, (threadRun_of_not_underWay hunderWay).2]⟩

/-! ## Outputs -/

/-- There is an output for each job but the one that the worker is at. -/
def Counted (p : AlgoProcess) : Prop :=
  p.scheduled.length = p.outputs.length + if p.worker = .idle then 0 else 1

theorem counted_step (p : AlgoProcess) (action : AlgoAction) (inv : p.WellFormed ∧ Counted p) :
    (p.step action).WellFormed ∧ Counted (p.step action) := by
  obtain ⟨wf, counted⟩ := inv
  refine ⟨AlgoProcess.wellFormed_step p action wf, ?_⟩
  refine AlgoProcess.step_preserves action counted (fun _ _ => ?_) (fun frame => ?_) ?_
  · rcases AlgoProcess.algoCtrlRun_cases wf.whole with h | ⟨-, -, h⟩ | ⟨-, hother, h⟩ <;> rw [h]
    · exact counted
    · exact counted
    · have hidle : p.worker = .idle := by
        by_contra hbusy
        exact hother (wf.running.mpr hbusy)
      rw [Counted, if_pos hidle] at counted
      simp only [Counted, List.length_append, List.length_singleton, counted, reduceCtorEq,
        if_false]
  · obtain ⟨provider, -, h⟩ := p.providerRun_eq frame
    rw [h]
    exact counted
  · rcases p.workerRun_cases with ⟨-, h⟩ | ⟨hw, h⟩ | ⟨l, hw, _, h⟩ | ⟨l, hw, -, h⟩ | ⟨hw, h⟩ |
      ⟨normalizer, hw, -, h⟩ <;> rw [h]
    · exact counted
    all_goals
      rw [Counted, hw] at counted
      simp only [Counted, reduceCtorEq, if_false, if_true, List.length_append,
        List.length_singleton] at counted ⊢
      omega

/-- Each frame that is scheduled is a job of the pool. -/
theorem scheduled_step (alive : s.crashed = false) (action : PooledAction)
    (same : s.pool.pushed.length = s.scheduled.length) :
    (s.step action).pool.pushed.length = (s.step action).scheduled.length := by
  have hpool (inner : ThreadPoolAction Unit) (other : ∀ job, inner ≠ .sched job) :
      (s.pool.step inner).pushed.length = s.scheduled.length := by
    rw [(ThreadContext.pushed_step other).1, same]
  rw [step_of_alive alive]
  cases action with
  | algoCtrl =>
    by_cases hidle : s.pool.schedStage = .idle
    · simp only [if_pos hidle]
      cases hschedules : (s.algoCtrl.run s.provider).2.schedules with
      | true =>
        rw [(algoCtrlRun_of_schedules hschedules).1, ThreadContext.schedJob_of_idle hidle]
        simp only [ThreadContext.pushQueueItem, List.length_append, List.length_singleton, same]
      | false =>
        rw [(algoCtrlRun_of_drops hschedules).1]
        exact same
    · simp only [if_neg hidle, same]
  | provider frame =>
    by_cases hidle : s.pool.schedStage = .idle
    · simp only [if_pos hidle]
      exact same
    · simp only [if_neg hidle, same]
  | scan => exact hpool .scan (by rintro _ ⟨⟩)
  | thread index =>
    show (s.threadRun index).pool.pushed.length = (s.threadRun index).scheduled.length
    by_cases hunderWay : s.UnderWay index
    · obtain ⟨busy, item, hfound, hcall⟩ := hunderWay
      rw [(threadRun_of_executing hfound hcall).1]
      exact same
    · rw [(threadRun_of_not_underWay hunderWay).1]
      exact hpool (.thread index) (by rintro _ ⟨⟩)
  | spurious index => exact hpool (.spurious index) (by rintro _ ⟨⟩)

theorem scheduled_processAt (run : InTimeRun schedule) (n : ℕ) :
    (processAt schedule n).pool.pushed.length = (processAt schedule n).scheduled.length := by
  induction n with
  | zero => rfl
  | succ n ih =>
    rw [processAt, stateAt_succ]
    exact scheduled_step (run.alive n) (schedule n) ih

theorem counted_processAt (schedule : ℕ → PooledAction) (n : ℕ) :
    Counted (processAt schedule n).toAlgoProcess := by
  rw [processAt, stateAt_eq_run, (inv_run inv_start _).2]
  exact (run_invariant AlgoProcess.step counted_step ⟨AlgoProcess.wellFormed_start, rfl⟩ _).2

/-- The job that has been scheduled last, when the jobs so far are as many as the frames. -/
theorem exists_last_item (inv : s.Inv) {k : ℕ} (pushed : k < s.pool.pushed.length) :
    ∃ item ∈ s.pool.pushed, item.number = k := by
  have hmem : k ∈ s.pool.pushed.map QueueItem.number := by
    rw [inv.each.numbers]
    exact List.mem_range.mpr pushed
  exact List.mem_map.mp hmem

/-- **Every frame is put out.** In a fair run in which no call divides by zero and every
frame that is scheduled is scheduled in time, there comes a moment when there is an output
for each of the frames that have been scheduled by now. -/
theorem frames_put_out (schedule : ℕ → PooledAction) (fair : Fair schedule)
    (run : InTimeRun schedule) (n : ℕ) :
    ∃ m, n ≤ m ∧
      (processAt schedule n).scheduled.length ≤ (processAt schedule m).outputs.length := by
  cases hlength : (processAt schedule n).scheduled.length with
  | zero => exact ⟨n, le_refl n, Nat.zero_le _⟩
  | succ k =>
    have hsame := scheduled_processAt run n
    obtain ⟨item, hpushed, hnumber⟩ := exists_last_item (inv_processAt schedule n)
      (show k < _ by omega)
    rw [pool_processAt run] at hpushed
    obtain ⟨m, hm, hfreed⟩ := ThreadContext.exists_freed_of_pushed (inTimeRun_pool run)
      (fair_poolSchedule run fair) hpushed
    rw [← pool_processAt run] at hfreed
    refine ⟨m, hm, ?_⟩
    have hback := (inv_processAt schedule m).freed item hfreed
    have hgrows := (ThreadContext.prefix_contextAt (.initThreadPool numAlgorithms)
      (poolSchedule schedule) hm).1.length_le
    rw [← pool_processAt run, ← pool_processAt run, hsame, scheduled_processAt run m] at hgrows
    have hcounted : (processAt schedule m).scheduled.length =
      (processAt schedule m).outputs.length +
        if (processAt schedule m).worker = .idle then 0 else 1 :=
      counted_processAt schedule m
    by_cases hmore : k + 1 < (processAt schedule m).scheduled.length
    · -- a later frame has been scheduled, behind the output of this one
      split at hcounted <;> omega
    · have hlast := scheduled_processAt run m
      have hworker : (processAt schedule m).worker = .idle := by
        rw [worker_of_pushed (run.alive m) (List.ne_nil_of_length_pos (by omega)), ← hback, hnumber]
        congr 1
        omega
      rw [if_pos hworker] at hcounted
      omega

/-! ## A run with one frame -/

/-- The frame of two halves is scheduled, and then the caller and every thread take turns. -/
def oneFrame : ℕ → PooledAction
  | 0 => .provider (some halves)
  | 1 => .algoCtrl
  | 2 => .scan
  | n + 3 => if n % 2 = 0 then .scan else .thread (Nat.unpair (n / 2)).1

theorem fair_oneFrame : Fair oneFrame where
  scan n := ⟨2 * n + 3, by omega, if_pos (by omega)⟩
  thread index n := by
    have hle := Nat.right_le_pair index n
    have hhalf : (2 * Nat.pair index n + 1) / 2 = Nat.pair index n := by omega
    refine ⟨2 * Nat.pair index n + 1 + 3, by omega, ?_⟩
    rw [oneFrame, if_neg (by omega), hhalf, Nat.unpair_pair]

/-- The worker is on its way to the end of a call. -/
def Completing (p : AlgoProcess) : Prop :=
  ∃ q : AlgoProcess, q.worker = .idle ∧ Relation.ReflTransGen Works p q

theorem Completing.alive {p : AlgoProcess} (completing : Completing p) : p.worker ≠ .crashed := by
  obtain ⟨q, hidle, hworks⟩ := completing
  intro hcrashed
  rcases hworks.cases_head with rfl | ⟨next, ⟨-, halive, rfl⟩, -⟩
  · rw [hidle] at hcrashed
    cases hcrashed
  · rw [AlgoProcess.workerRun, hcrashed] at halive
    exact halive hcrashed

theorem Completing.workerRun {p : AlgoProcess} (completing : Completing p) :
    Completing p.workerRun := by
  obtain ⟨q, hidle, hworks⟩ := completing
  rcases hworks.cases_head with rfl | ⟨next, ⟨-, -, rfl⟩, hrest⟩
  · have hsame : p.workerRun = p := by rw [AlgoProcess.workerRun, hidle]
    rw [hsame]
    exact ⟨p, hidle, .refl⟩
  · exact ⟨q, hidle, hrest⟩

theorem completing_oneFrame (n : ℕ) : Completing (processAt oneFrame (n + 3)).toAlgoProcess := by
  induction n with
  | zero =>
    have hsched := emptied_start.sched (by decide)
    have hthree : processAt oneFrame 3 = run step (start.step (.provider (some halves)))
      (.algoCtrl :: List.replicate 1 .scan) := rfl
    rw [hthree, hsched]
    exact ⟨_, rfl, works_of_exec rfl (exec_halves_of_ready ready_init)⟩
  | succ n ih =>
    rw [processAt, stateAt_succ, (inv_step _ _ (inv_processAt oneFrame (n + 3))).2, oneFrame]
    split
    · exact ih
    · rw [visible]
      split
      · split
        · exact ih
        · rw [run_cons, run_nil, AlgoProcess.step_alive ih.alive]
          exact ih.workerRun
      · exact ih

/-- A process that has crashed does nothing more. -/
theorem crashed_processAt {n m : ℕ} (le : n ≤ m)
    (crashed : (processAt schedule n).crashed = true) :
    (processAt schedule m).crashed = true := by
  induction le with
  | refl => exact crashed
  | step _ ih =>
    rw [processAt, stateAt_succ, step_of_crashed ih]
    exact ih

theorem inTimeRun_oneFrame : InTimeRun oneFrame where
  inTime n := by
    match n with
    | 0 | 2 => trivial
    | 1 => exact fun _ _ => .inl (.inl (by decide))
    | n + 3 =>
      rw [oneFrame]
      split <;> trivial
  alive n := by
    rw [Bool.eq_false_iff]
    intro hcrashed
    have hlater := crashed_processAt (Nat.le_add_right n 3) hcrashed
    exact (completing_oneFrame n).alive (worker_of_crashed hlater)

/-- The output of the only frame. -/
theorem frames_put_out_oneFrame :
    ∃ m, 3 ≤ m ∧
      (processAt oneFrame 3).scheduled.length ≤ (processAt oneFrame m).outputs.length :=
  frames_put_out oneFrame fair_oneFrame inTimeRun_oneFrame 3

end PooledProcess

end PiVision
