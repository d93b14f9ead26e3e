import PiVision.Pipeline.InputStability
import PiVision.ThreadPool.LostWakeup
import Mathlib.Logic.Function.Basic

/-!
# Algorithm control and its thread pool

`ALGOCTRL_init` asks for a pool of two threads, and the callback of algorithm control
gives it a job for each frame that it does not drop. The callbacks run on the thread that
calls `sched_job`, so they stand still during a call of it. Each job is a call of
`IMGNORMALGO_exec` on `algorithms[0]`; the calls have locals of their own and share
everything else.

Whatever the threads do, at most one call is under way, so that the process with its pool
is an implementation of the one in which a single worker executes the jobs.
-/

namespace PiVision

open Machine

/-- `NUM_ALGORITHMS`. -/
def numAlgorithms : UInt32 := 2

/-- The modules that meet in `recBuffer`, with the pool that executes the algorithm. For
each item of the pool, `calls` has where the call of `IMGNORMALGO_exec` stands: not yet
begun, under way, or back. -/
structure PooledProcess where
  provider : ImageProviderState
  algoCtrl : AlgoCtrlState
  normalizer : NormalizerState
  pool : ThreadContext Unit
  calls : ℕ → Worker
  crashed : Bool
  scheduled : List (UInt32 × ColorImage)
  outputs : List GrayscaleImage

/-- A step: a callback of algorithm control or of the image provider, the next round of
the call of `sched_job`, a step of a thread, or a spurious wake-up of one. -/
inductive PooledAction
  | algoCtrl
  | provider (frame : Option ColorImage)
  | scan
  | thread (index : ℕ)
  | spurious (index : ℕ)

namespace PooledProcess

/-- The process before its first round. -/
def start : PooledProcess where
  provider := .init
  algoCtrl := .init
  normalizer := .init
  pool := .initThreadPool numAlgorithms
  calls := fun _ => .queued
  crashed := false
  scheduled := []
  outputs := []

/-- The process in which a single worker stands at the given place. -/
def withWorker (s : PooledProcess) (worker : Worker) : AlgoProcess :=
  ⟨s.provider, s.algoCtrl, worker, s.normalizer, s.scheduled, s.outputs⟩

/-- The callback of algorithm control, up to the push of a job that it schedules. -/
def algoCtrlRun (s : PooledProcess) : PooledProcess :=
  let (algoCtrl, effect) := s.algoCtrl.run s.provider
  if effect.schedules then
    { s with
      algoCtrl := algoCtrl
      pool := s.pool.schedJob ()
      scheduled := s.scheduled ++ [(s.normalizer.averageIntensity, algoCtrl.recBuffer)] }
  else { s with algoCtrl := algoCtrl }

/-- The callback of the image provider. -/
def providerRun (s : PooledProcess) (frame : Option ColorImage) : PooledProcess :=
  { s with provider := ((s.withWorker .idle).providerRun frame).provider }

/-- A step of the call of `IMGNORMALGO_exec` for the item of the given number. -/
def callRun (s : PooledProcess) (number : ℕ) : PooledProcess :=
  let next := (s.withWorker (s.calls number)).workerRun
  { s with
    algoCtrl := next.algoCtrl
    normalizer := next.normalizer
    calls := Function.update s.calls number next.worker
    crashed := decide (next.worker = .crashed)
    outputs := next.outputs }

/-- A step of a thread: one of the call that it executes, until that is back. -/
def threadRun (s : PooledProcess) (index : ℕ) : PooledProcess :=
  match s.pool.threads[index]? with
  | some ⟨_, .executing item⟩ =>
    if s.calls item.number = .idle then { s with pool := s.pool.poolThreadFunc index }
    else s.callRun item.number
  | _ => { s with pool := s.pool.poolThreadFunc index }

/-- A step. A crash of any thread ends the process. -/
def step (s : PooledProcess) (action : PooledAction) : PooledProcess :=
  if s.crashed then s
  else
    match action with
    | .algoCtrl => if s.pool.schedStage = .idle then s.algoCtrlRun else s
    | .provider frame => if s.pool.schedStage = .idle then s.providerRun frame else s
    | .scan => { s with pool := s.pool.scan }
    | .thread index => s.threadRun index
    | .spurious index => { s with pool := s.pool.wakeSpuriously index }

/-- Where the call stands that has been scheduled last. -/
def worker (s : PooledProcess) : Worker :=
  if s.crashed then .crashed
  else if s.pool.pushed = [] then .idle
  else s.calls (s.pool.pushed.length - 1)

/-- The process in which a single worker executes the jobs. -/
def toAlgoProcess (s : PooledProcess) : AlgoProcess := s.withWorker s.worker

/-- What a step is for the process with a single worker. -/
def visible (s : PooledProcess) : PooledAction → List AlgoAction
  | .algoCtrl => if s.pool.schedStage = .idle then [.algoCtrl] else []
  | .provider frame => if s.pool.schedStage = .idle then [.provider frame] else []
  | .scan | .spurious _ => []
  | .thread index =>
    match s.pool.threads[index]? with
    | some ⟨_, .executing item⟩ => if s.calls item.number = .idle then [] else [.worker]
    | _ => []

/-- What a run is for the process with a single worker. -/
def trace : PooledProcess → List PooledAction → List AlgoAction
  | _, [] => []
  | s, action :: actions => s.visible action ++ trace (s.step action) actions

/-! ## One call at a time -/

/-- What holds between two steps: a call is scheduled when all calls before it are back. -/
structure Inv (s : PooledProcess) : Prop where
  wellFormed : s.toAlgoProcess.WellFormed
  each : s.pool.EachOnce
  back : ∀ n, n + 1 < s.pool.pushed.length → s.calls n = .idle
  fresh : ∀ n, s.pool.pushed.length ≤ n → s.calls n = .queued
  waiting : ∀ item ∈ s.pool.jobQueue, s.calls item.number = .queued
  freed : ∀ item ∈ s.pool.freed, s.calls item.number = .idle
  alive : s.crashed = false → s.worker ≠ .crashed

variable {s : PooledProcess}

theorem inv_start : start.Inv where
  wellFormed := AlgoProcess.wellFormed_start
  each := ThreadContext.eachOnce_initThreadPool numAlgorithms
  back := fun n h => absurd h (Nat.not_lt_zero _)
  fresh := fun _ _ => rfl
  waiting := fun _ h => absurd h List.not_mem_nil
  freed := fun _ h => absurd h List.not_mem_nil
  alive := by decide

theorem worker_of_crashed (crashed : s.crashed = true) : s.worker = .crashed := if_pos crashed

/-- A job is scheduled unless the algorithm is running. -/
theorem algoState_of_schedules (s : AlgoCtrlState) (provider : ImageProviderState)
    (schedules : (s.run provider).2.schedules = true) : s.algoState ≠ .running := by
  simp only [AlgoCtrlState.run] at schedules
  split at schedules
  · split at schedules
    · assumption
    · cases schedules
  · cases schedules

/-- The call that is under way is the last one. -/
theorem Inv.last_of_executing (inv : s.Inv) {item : QueueItem Unit}
    (executing : item ∈ s.pool.executing) (underWay : s.calls item.number ≠ .idle) :
    item.number = s.pool.pushed.length - 1 := by
  have hlt := inv.each.number_lt (inv.each.mem_pushed_of_executing executing)
  have hlast : ¬item.number + 1 < s.pool.pushed.length := fun h => underWay (inv.back _ h)
  omega

theorem worker_of_pushed (alive : s.crashed = false) (some : s.pool.pushed ≠ []) :
    s.worker = s.calls (s.pool.pushed.length - 1) := by
  simp [worker, alive, some]

/-- What a step of the pool itself changes, apart from the pool. -/
theorem toAlgoProcess_pool {pool : ThreadContext Unit} (same : pool.pushed = s.pool.pushed) :
    ({ s with pool := pool } : PooledProcess).toAlgoProcess = s.toAlgoProcess := by
  simp only [toAlgoProcess, worker, same]
  rfl

theorem Inv.pool (inv : s.Inv) {pool : ThreadContext Unit} (each : pool.EachOnce)
    (same : pool.pushed = s.pool.pushed) (queue : pool.jobQueue ⊆ s.pool.jobQueue)
    (freed : ∀ item ∈ pool.freed, s.calls item.number = .idle) :
    ({ s with pool := pool } : PooledProcess).Inv where
  wellFormed := by
    rw [toAlgoProcess_pool same]
    exact inv.wellFormed
  each := each
  back n h := inv.back n (same ▸ h)
  fresh n h := inv.fresh n (same ▸ h)
  waiting item h := inv.waiting item (queue h)
  freed := freed
  alive h := by
    have hworker := congrArg AlgoProcess.worker (toAlgoProcess_pool (s := s) same)
    rw [show ({ s with pool := pool } : PooledProcess).worker = s.worker from hworker]
    exact inv.alive h

/-- The step of the pool that an action is, unless a call makes it. -/
theorem Inv.poolStep (inv : s.Inv) (action : ThreadPoolAction Unit)
    (other : ∀ job, action ≠ .sched job)
    (back : ∀ index busy item, action = .thread index →
      s.pool.threads[index]? = some ⟨busy, .executing item⟩ → s.calls item.number = .idle) :
    let next : PooledProcess := { s with pool := s.pool.step action }
    next.Inv ∧ next.toAlgoProcess = s.toAlgoProcess := by
  obtain ⟨hpushed, hqueue⟩ := ThreadContext.pushed_step (c := s.pool) other
  have hfreed : ∀ item ∈ (s.pool.step action).freed, s.calls item.number = .idle := by
    intro item hitem
    rcases ThreadContext.freed_step hitem with hold | ⟨index, busy, hindex, hfound⟩
    · exact inv.freed item hold
    · exact back index busy item hindex hfound
  exact ⟨inv.pool (ThreadContext.eachOnce_step s.pool action inv.each) hpushed hqueue hfreed,
    toAlgoProcess_pool hpushed⟩

theorem crashed_workerRun_iff (s : PooledProcess) (n : ℕ) :
    (s.callRun n).crashed = true ↔ (s.withWorker (s.calls n)).workerRun.worker = .crashed :=
  decide_eq_true_iff

/-- The call that makes a step stays the last one. -/
theorem worker_callRun {n : ℕ} (last : n + 1 = s.pool.pushed.length) :
    (s.callRun n).worker = (s.withWorker (s.calls n)).workerRun.worker := by
  have hpushed : s.pool.pushed ≠ [] := by
    intro hnil
    rw [hnil] at last
    cases last
  by_cases hcrashed : (s.withWorker (s.calls n)).workerRun.worker = .crashed
  · rw [worker_of_crashed ((crashed_workerRun_iff s n).mpr hcrashed), hcrashed]
  · have halive : (s.callRun n).crashed = false := by
      rw [Bool.eq_false_iff]
      exact fun h => hcrashed ((crashed_workerRun_iff s n).mp h)
    have hn : s.pool.pushed.length - 1 = n := by omega
    rw [worker_of_pushed halive hpushed]
    show Function.update s.calls n _ (s.pool.pushed.length - 1) = _
    rw [hn, Function.update_self]

/-- A step of the last call is a step of the single worker. -/
theorem toAlgoProcess_callRun {n : ℕ} (alive : s.crashed = false)
    (last : n + 1 = s.pool.pushed.length) :
    (s.callRun n).toAlgoProcess = s.toAlgoProcess.workerRun := by
  have hpushed : s.pool.pushed ≠ [] := by
    intro hnil
    rw [hnil] at last
    cases last
  have hn : s.pool.pushed.length - 1 = n := by omega
  have hworker : s.worker = s.calls n := by rw [worker_of_pushed alive hpushed, hn]
  obtain ⟨hprovider, -, hscheduled⟩ := (s.withWorker (s.calls n)).workerRun_frame
  rw [toAlgoProcess, toAlgoProcess, hworker, withWorker, worker_callRun last]
  show AlgoProcess.mk s.provider _ _ _ s.scheduled _ = _
  rw [show s.provider = _ from hprovider.symm, show s.scheduled = _ from hscheduled.symm]
  rfl

theorem Inv.callRun (inv : s.Inv) (alive : s.crashed = false) {item : QueueItem Unit}
    (executing : item ∈ s.pool.executing) (underWay : s.calls item.number ≠ .idle) :
    (s.callRun item.number).Inv ∧
      (s.callRun item.number).toAlgoProcess = s.toAlgoProcess.workerRun := by
  have hmem := inv.each.mem_pushed_of_executing executing
  have hlt := inv.each.number_lt hmem
  have hlast := inv.last_of_executing executing underWay
  have heq := toAlgoProcess_callRun (n := item.number) alive (by omega)
  have hwf : (s.callRun item.number).toAlgoProcess.WellFormed := by
    rw [heq]
    exact AlgoProcess.wellFormed_workerRun inv.wellFormed
  refine ⟨⟨hwf, inv.each, fun n h => ?_, fun n h => ?_, fun other h => ?_, fun other h => ?_,
    fun h => ?_⟩, heq⟩
  · show Function.update s.calls item.number _ n = _
    rw [Function.update_of_ne (by rintro rfl; exact underWay (inv.back _ h))]
    exact inv.back n h
  · show Function.update s.calls item.number _ n = _
    have hle : s.pool.pushed.length ≤ n := h
    rw [Function.update_of_ne (by omega)]
    exact inv.fresh n hle
  · show Function.update s.calls item.number _ other.number = _
    have hne : other.number ≠ item.number := by
      intro hsame
      obtain rfl := inv.each.number_inj (inv.each.mem_pushed_of_queue h) hmem hsame
      have hdisjoint := (List.nodup_append.mp inv.each.nodup).2.2
      exact hdisjoint other (List.mem_append_right _ executing) other h rfl
    rw [Function.update_of_ne hne]
    exact inv.waiting other h
  · show Function.update s.calls item.number _ other.number = _
    have hback := inv.freed other h
    rw [Function.update_of_ne (by intro hsame; exact underWay (hsame ▸ hback))]
    exact hback
  · rw [worker_callRun (by omega)]
    intro hcrashed
    rw [(crashed_workerRun_iff s item.number).mpr hcrashed] at h
    cases h

/-- The callback of algorithm control drops its frame, or has none. -/
theorem algoCtrlRun_of_drops (drops : (s.algoCtrl.run s.provider).2.schedules = false) :
    s.algoCtrlRun = { s with algoCtrl := (s.algoCtrl.run s.provider).1 } ∧
      s.toAlgoProcess.algoCtrlRun =
        { s.toAlgoProcess with algoCtrl := (s.algoCtrl.run s.provider).1 } := by
  constructor
  · simp only [algoCtrlRun, drops, Bool.false_eq_true, if_false]
  · simp only [AlgoProcess.algoCtrlRun, toAlgoProcess, withWorker, drops, Bool.false_eq_true,
      if_false]

/-- The callback of algorithm control schedules its frame. -/
theorem algoCtrlRun_of_schedules (schedules : (s.algoCtrl.run s.provider).2.schedules = true) :
    let algoCtrl := (s.algoCtrl.run s.provider).1
    let scheduled := s.scheduled ++ [(s.normalizer.averageIntensity, algoCtrl.recBuffer)]
    s.algoCtrlRun = { s with
      algoCtrl := algoCtrl, pool := s.pool.schedJob (), scheduled := scheduled } ∧
    s.toAlgoProcess.algoCtrlRun = { s.toAlgoProcess with
      algoCtrl := algoCtrl, worker := .queued, scheduled := scheduled } := by
  constructor
  · simp only [algoCtrlRun, schedules, if_true]
  · simp only [AlgoProcess.algoCtrlRun, toAlgoProcess, withWorker, schedules, if_true]

/-- A job that is scheduled finds every call back. -/
theorem Inv.back_of_not_running (inv : s.Inv) (alive : s.crashed = false)
    (idle : s.algoCtrl.algoState ≠ .running) (n : ℕ) (hn : n < s.pool.pushed.length) :
    s.calls n = .idle := by
  by_cases hlast : n + 1 < s.pool.pushed.length
  · exact inv.back n hlast
  have hpushed : s.pool.pushed ≠ [] := List.ne_nil_of_length_pos (by omega)
  have hworker : s.worker = .idle := by
    by_contra hbusy
    exact idle (inv.wellFormed.running.mpr hbusy)
  rw [worker_of_pushed alive hpushed] at hworker
  rwa [show n = s.pool.pushed.length - 1 by omega]

theorem Inv.algoCtrlRun (inv : s.Inv) (alive : s.crashed = false)
    (idle : s.pool.schedStage = .idle) :
    s.algoCtrlRun.Inv ∧ s.algoCtrlRun.toAlgoProcess = s.toAlgoProcess.algoCtrlRun := by
  have hwf := AlgoProcess.wellFormed_algoCtrlRun inv.wellFormed
  cases hschedules : (s.algoCtrl.run s.provider).2.schedules with
  | false =>
    obtain ⟨h, h'⟩ := algoCtrlRun_of_drops hschedules
    rw [h'] at hwf
    rw [h, h']
    exact ⟨⟨hwf, inv.each, inv.back, inv.fresh, inv.waiting, inv.freed, inv.alive⟩, rfl⟩
  | true =>
    have hback := inv.back_of_not_running alive (algoState_of_schedules _ _ hschedules)
    have hfresh := inv.fresh _ (Nat.le_refl _)
    have heach := ThreadContext.eachOnce_step s.pool (.sched ()) inv.each
    have hpush := ThreadContext.schedJob_of_idle idle ()
    have hlength : (s.pool.schedJob ()).pushed.length = s.pool.pushed.length + 1 := by
      rw [hpush]
      exact List.length_append
    obtain ⟨h, h'⟩ := algoCtrlRun_of_schedules hschedules
    have hworker : s.algoCtrlRun.worker = .queued := by
      have hsome : (s.pool.schedJob ()).pushed ≠ [] := List.ne_nil_of_length_pos (by omega)
      rw [h]
      refine (worker_of_pushed (s := { s with
        algoCtrl := _, pool := s.pool.schedJob (), scheduled := _ }) alive hsome).trans ?_
      show s.calls ((s.pool.schedJob ()).pushed.length - 1) = _
      rw [hlength, Nat.add_sub_cancel, hfresh]
    have heq : s.algoCtrlRun.toAlgoProcess = s.toAlgoProcess.algoCtrlRun := by
      rw [toAlgoProcess, hworker, h, h']
      rfl
    refine ⟨⟨heq ▸ hwf, ?_, ?_, ?_, ?_, ?_, fun _ => by rw [hworker]; exact nofun⟩, heq⟩ <;>
      rw [h]
    · exact heach
    · intro n hn
      exact hback n (by simp only [hlength] at hn; omega)
    · intro n hn
      exact inv.fresh n (by simp only [hlength] at hn; omega)
    · intro item hitem
      rw [hpush] at hitem
      rcases List.mem_append.mp hitem with hold | hnew
      · exact inv.waiting item hold
      · rw [List.mem_singleton.mp hnew]
        exact hfresh
    · intro item hitem
      rw [hpush] at hitem
      exact inv.freed item hitem

theorem Inv.providerRun (inv : s.Inv) (frame : Option ColorImage) :
    (s.providerRun frame).Inv ∧
      (s.providerRun frame).toAlgoProcess = s.toAlgoProcess.providerRun frame := by
  have heq : (s.providerRun frame).toAlgoProcess = s.toAlgoProcess.providerRun frame := by
    cases frame <;> rfl
  refine ⟨⟨?_, inv.each, inv.back, inv.fresh, inv.waiting, inv.freed, inv.alive⟩, heq⟩
  rw [heq]
  exact AlgoProcess.wellFormed_providerRun inv.wellFormed frame

theorem Inv.threadRun (inv : s.Inv) (alive : s.crashed = false) (index : ℕ) :
    (s.threadRun index).Inv ∧ (s.threadRun index).toAlgoProcess =
      run AlgoProcess.step s.toAlgoProcess (s.visible (.thread index)) := by
  rw [PooledProcess.threadRun, visible]
  split
  · rename_i busy item hfound
    by_cases hback : s.calls item.number = .idle
    · rw [if_pos hback, if_pos hback]
      refine inv.poolStep (.thread index) nofun fun j b other hindex hother => ?_
      obtain rfl := ThreadPoolAction.thread.inj hindex
      rw [hfound] at hother
      cases hother
      exact hback
    · have hworker : s.toAlgoProcess.worker ≠ .crashed := inv.alive alive
      rw [if_neg hback, if_neg hback, run_cons, run_nil, AlgoProcess.step_alive hworker]
      exact inv.callRun alive (ThreadContext.mem_executing hfound) hback
  · rename_i hother
    refine inv.poolStep (.thread index) nofun fun j b item hindex hfound => ?_
    obtain rfl := ThreadPoolAction.thread.inj hindex
    exact absurd hfound (hother b item)

theorem step_of_crashed (crashed : s.crashed = true) (action : PooledAction) :
    s.step action = s := if_pos crashed

theorem step_of_alive (alive : s.crashed = false) (action : PooledAction) :
    s.step action = match action with
      | .algoCtrl => if s.pool.schedStage = .idle then s.algoCtrlRun else s
      | .provider frame => if s.pool.schedStage = .idle then s.providerRun frame else s
      | .scan => { s with pool := s.pool.scan }
      | .thread index => s.threadRun index
      | .spurious index => { s with pool := s.pool.wakeSpuriously index } :=
  if_neg (Bool.eq_false_iff.mp alive)

/-- **One step** of the process with its pool is a step of the one with a single worker, or
none. -/
theorem inv_step (s : PooledProcess) (action : PooledAction) (inv : s.Inv) :
    (s.step action).Inv ∧ (s.step action).toAlgoProcess =
      run AlgoProcess.step s.toAlgoProcess (s.visible action) := by
  cases hcrashed : s.crashed with
  | true =>
    have hworker : s.toAlgoProcess.worker = .crashed := worker_of_crashed hcrashed
    have hstop (actions : List AlgoAction) :
        run AlgoProcess.step s.toAlgoProcess actions = s.toAlgoProcess := by
      induction actions with
      | nil => rfl
      | cons a actions ih => rw [run_cons, AlgoProcess.step_crashed hworker, ih]
    rw [step_of_crashed hcrashed, hstop]
    exact ⟨inv, rfl⟩
  | false =>
    have hworker : s.toAlgoProcess.worker ≠ .crashed := inv.alive hcrashed
    rw [step_of_alive hcrashed]
    cases action with
    | algoCtrl =>
      by_cases hidle : s.pool.schedStage = .idle
      · simp only [visible, if_pos hidle, run_cons, run_nil, AlgoProcess.step_alive hworker]
        exact inv.algoCtrlRun hcrashed hidle
      · simp only [visible, if_neg hidle]
        exact ⟨inv, rfl⟩
    | provider frame =>
      by_cases hidle : s.pool.schedStage = .idle
      · simp only [visible, if_pos hidle, run_cons, run_nil, AlgoProcess.step_alive hworker]
        exact inv.providerRun frame
      · simp only [visible, if_neg hidle]
        exact ⟨inv, rfl⟩
    | scan => exact inv.poolStep .scan nofun nofun
    | thread index => exact inv.threadRun hcrashed index
    | spurious index => exact inv.poolStep (.spurious index) nofun nofun

theorem inv_run (inv : s.Inv) (actions : List PooledAction) :
    (run step s actions).Inv ∧ (run step s actions).toAlgoProcess =
      run AlgoProcess.step s.toAlgoProcess (trace s actions) := by
  induction actions generalizing s with
  | nil => exact ⟨inv, rfl⟩
  | cons action actions ih =>
    obtain ⟨hnext, heq⟩ := inv_step s action inv
    obtain ⟨hinv, hrest⟩ := ih hnext
    rw [run_cons, trace, run_append, ← heq]
    exact ⟨hinv, hrest⟩

/-- **The pool is a single worker.** In every interleaving of the callbacks, the call of
`sched_job` and the threads, the process with its pool goes through the states of the one
in which a single worker executes the jobs, under the same callbacks in the same order. -/
theorem refines_single_worker (actions : List PooledAction) :
    (run step start actions).toAlgoProcess =
      run AlgoProcess.step AlgoProcess.start (trace start actions) :=
  (inv_run inv_start actions).2

/-- **One call at a time.** Never are two threads inside the algorithm, whose working memory
is static: of the calls of the pool's threads all but one are back, and those before the
last job are back wherever their threads stand. -/
theorem one_call_at_a_time (actions : List PooledAction) :
    let s := run step start actions
    (∀ item ∈ s.pool.executing, ∀ other ∈ s.pool.executing,
      s.calls item.number ≠ .idle → s.calls other.number ≠ .idle → item = other) ∧
    ∀ item ∈ s.pool.pushed, item.number + 1 < s.pool.pushed.length →
      s.calls item.number = .idle := by
  intro s
  have hinv : s.Inv := (inv_run inv_start actions).1
  refine ⟨fun item hitem other hother hbusy hbusy' => ?_, fun item _ h => hinv.back _ h⟩
  have hsame : item.number = other.number :=
    (hinv.last_of_executing hitem hbusy).trans (hinv.last_of_executing hother hbusy').symm
  exact hinv.each.number_inj (hinv.each.mem_pushed_of_executing hitem)
    (hinv.each.mem_pushed_of_executing hother) hsame

end PooledProcess

end PiVision
