import PiVision.Pipeline.PooledProcess
import PiVision.Pipeline.Sequential

/-!
# The pipeline that stops

A job that the pool loses is never made up for: the algorithm counts as running from the
moment its frame was scheduled, so that algorithm control drops every later frame and
schedules nothing that would wake a thread up. Nothing has failed, and nothing is ever
put out again.
-/

namespace PiVision

open Machine NormalizerState

namespace PooledProcess

open AlgoProcess (Works works_of_exec)

variable {s : PooledProcess}

/-- The step is no spurious wake-up of a thread. -/
def Prompted : PooledAction → Prop
  | .spurious _ => False
  | _ => True

/-- The job of the running algorithm is in the queue, with nobody to take it out. -/
structure Stalled (s : PooledProcess) : Prop where
  pool : s.pool.Stranded
  running : s.algoCtrl.algoState = .running

/-- Nothing has come out of the process, or gone into its pool. -/
def SameOutputs (s d : PooledProcess) : Prop :=
  d.outputs = s.outputs ∧ d.scheduled = s.scheduled ∧ d.pool.jobQueue = s.pool.jobQueue

/-- A frame that arrives while the algorithm is running is dropped. -/
theorem run_of_running {a : AlgoCtrlState} (running : a.algoState = .running)
    (provider : ImageProviderState) :
    (a.run provider).1.algoState = .running ∧ (a.run provider).2.schedules = false := by
  simp only [AlgoCtrlState.run, running, ne_eq, not_true_eq_false, if_false]
  split <;> exact ⟨rfl, rfl⟩

theorem Stalled.step {action : PooledAction} (stalled : s.Stalled) (prompted : Prompted action) :
    (s.step action).Stalled ∧ s.SameOutputs (s.step action) := by
  have hpool (inner : ThreadPoolAction Unit) (internal : ThreadContext.Internal inner) :
      ({ s with pool := s.pool.step inner } : PooledProcess).Stalled ∧
        s.SameOutputs { s with pool := s.pool.step inner } := by
    obtain ⟨hstranded, hqueue⟩ := stalled.pool.step internal
    exact ⟨⟨hstranded, stalled.running⟩, rfl, rfl, hqueue⟩
  cases hcrashed : s.crashed with
  | true =>
    rw [step_of_crashed hcrashed]
    exact ⟨stalled, rfl, rfl, rfl⟩
  | false =>
    rw [step_of_alive hcrashed]
    cases action with
    | algoCtrl =>
      obtain ⟨hrunning, hdrops⟩ := run_of_running stalled.running s.provider
      simp only [if_pos stalled.pool.idle]
      rw [(algoCtrlRun_of_drops hdrops).1]
      exact ⟨⟨stalled.pool, hrunning⟩, rfl, rfl, rfl⟩
    | provider frame =>
      simp only [if_pos stalled.pool.idle]
      exact ⟨⟨stalled.pool, stalled.running⟩, rfl, rfl, rfl⟩
    | scan => exact hpool .scan trivial
    | thread index =>
      have hthread : s.threadRun index = { s with pool := s.pool.step (.thread index) } := by
        rw [threadRun]
        split
        · -- no thread executes anything
          rename_i hfound
          exact (stalled.pool.drowsy _ (List.mem_of_getElem? hfound)).elim
        · rfl
      show (s.threadRun index).Stalled ∧ s.SameOutputs (s.threadRun index)
      rw [hthread]
      exact hpool (.thread index) trivial
    | spurious index => exact prompted.elim

theorem Stalled.run {actions : List PooledAction} (stalled : s.Stalled)
    (prompted : ∀ action ∈ actions, Prompted action) :
    (run PooledProcess.step s actions).Stalled ∧
      s.SameOutputs (run PooledProcess.step s actions) := by
  have hkeeps (d : PooledProcess) (action : PooledAction) (inv : d.Stalled ∧ s.SameOutputs d)
      (h : Prompted action) : (d.step action).Stalled ∧ s.SameOutputs (d.step action) := by
    obtain ⟨hstalled, houtputs, hscheduled, hqueue⟩ := inv.1.step h
    obtain ⟨houtputs', hscheduled', hqueue'⟩ := inv.2
    exact ⟨hstalled, houtputs.trans houtputs', hscheduled.trans hscheduled',
      hqueue.trans hqueue'⟩
  exact run_invariant_along hkeeps ⟨stalled, rfl, rfl, rfl⟩
    (along_of_forall_mem (fun _ _ h => h) s prompted)

/-- A frame is about to be scheduled, and every thread is between its last pop and the reset
of `busy`, with no room for another one. -/
structure Late (s : PooledProcess) : Prop where
  alive : s.crashed = false
  idle : s.pool.schedStage = .idle
  frame : s.provider.recBufferSize = colorImageSize
  notRunning : s.algoCtrl.algoState ≠ .running
  emptied : ∀ t ∈ s.pool.threads, t = ⟨true, .emptied⟩
  full : ¬s.pool.HasRoom

/-- The rounds of a call of `sched_job` on a pool, in the process that has got it. -/
theorem run_scan (alive : s.crashed = false) (n : ℕ) :
    run step s (List.replicate n .scan) =
      { s with pool := run ThreadContext.step s.pool (List.replicate n .scan) } := by
  induction n generalizing s with
  | zero => rfl
  | succ n ih =>
    rw [List.replicate_succ, run_cons, step_of_alive alive]
    exact ih alive

/-- The frame that comes late is scheduled, and its job is stranded. -/
theorem Late.stalled (late : s.Late) :
    (run step s (.algoCtrl :: List.replicate (s.pool.threads.length + 1) .scan)).Stalled := by
  have hrun := AlgoCtrlState.run_of_full s.algoCtrl late.frame
  have hschedules : (s.algoCtrl.run s.provider).2.schedules = true := by
    rw [hrun]
    exact decide_eq_true late.notRunning
  have hconsistent : ∀ t ∈ s.pool.threads, t.busy = true := by
    intro t ht
    rw [late.emptied t ht]
  have hstranded := ThreadContext.stranded_of_late () late.idle hconsistent
    (fun t ht => by rw [late.emptied t ht]) late.full
  rw [run_cons, step_of_alive late.alive]
  simp only [if_pos late.idle]
  obtain ⟨hnext, -⟩ := algoCtrlRun_of_schedules hschedules
  have halive : s.algoCtrlRun.crashed = false := by
    rw [hnext]
    exact late.alive
  rw [run_scan halive, hnext]
  exact ⟨hstranded.1, by rw [hrun]⟩

/-! ## A job is executed -/

/-- The process whose call for the item of the given number stands where the worker does. -/
def withCall (s : PooledProcess) (number : ℕ) (q : AlgoProcess) : PooledProcess :=
  { s with
    algoCtrl := q.algoCtrl
    normalizer := q.normalizer
    calls := Function.update s.calls number q.worker
    outputs := q.outputs }

theorem step_thread_of_works {index : ℕ} {busy : Bool} {item : QueueItem Unit} {q : AlgoProcess}
    (alive : s.crashed = false)
    (found : s.pool.threads[index]? = some ⟨busy, .executing item⟩)
    (works : Works (s.withWorker (s.calls item.number)) q) :
    s.step (.thread index) = s.withCall item.number q ∧
      (s.withCall item.number q).withWorker q.worker = q := by
  obtain ⟨hbusy, hlives, rfl⟩ := works
  obtain ⟨hprovider, -, hscheduled⟩ := (s.withWorker (s.calls item.number)).workerRun_frame
  constructor
  · rw [step_of_alive alive]
    show s.threadRun index = _
    simp only [threadRun, found, if_neg (show s.calls item.number ≠ .idle from hbusy), callRun,
      withCall, decide_eq_false hlives, alive]
  · show AlgoProcess.mk s.provider _ _ _ s.scheduled _ = _
    rw [show s.provider = _ from hprovider.symm, show s.scheduled = _ from hscheduled.symm]
    rfl

/-- A thread brings the call that it executes to where the worker can get. -/
theorem run_thread_of_works {index : ℕ} {busy : Bool} {item : QueueItem Unit} {q : AlgoProcess}
    (alive : s.crashed = false)
    (found : s.pool.threads[index]? = some ⟨busy, .executing item⟩)
    (works : Relation.ReflTransGen Works (s.withWorker (s.calls item.number)) q) :
    ∃ n, run step s (List.replicate n (.thread index)) = s.withCall item.number q := by
  generalize hp : s.withWorker (s.calls item.number) = p at works
  induction works using Relation.ReflTransGen.head_induction_on generalizing s with
  | refl =>
    refine ⟨0, ?_⟩
    rw [← hp, withCall]
    simp only [withWorker, Function.update_eq_self]
    rfl
  | @head p next first rest ih =>
    subst hp
    obtain ⟨hstep, hnext⟩ := step_thread_of_works alive found first
    have hself : (s.withCall item.number next).calls item.number = next.worker :=
      Function.update_self _ _ _
    obtain ⟨n, hn⟩ := ih (s := s.withCall item.number next) alive found (by rw [hself, hnext])
    refine ⟨n + 1, ?_⟩
    rw [List.replicate_succ, run_cons, hstep, hn]
    simp only [withCall, Function.update_idem]

/-! ## Two jobs leave the pool as it must not be -/

theorem exec_halves_of_ready {n : NormalizerState} (ready : Ready n) :
    exec n halves = some (normalized (grayscale halves) 101) := by
  have haverage : average n.averageIntensity (filtered (grayscale halves)) = 101 := by
    have hsmall := ready.small
    have hkept : keptSum (grayscale halves) = 153600 * 100 + 153600 * 102 := by
      rw [grayscale_halves, keptSum, sum_map_twoTone]
      rfl
    have hnumber : (101 : UInt32).toNat = 101 := rfl
    rw [← UInt32.toNat_inj, toNat_average hsmall, mean, hkept, grayscaleImageSize_eq, hnumber]
    omega
  have hinit := exec_halves
  rw [exec_eq_normalizeWith ready_init, average_halves] at hinit
  rw [exec_eq_normalizeWith ready, haverage, hinit]

/-- So many threads, each of which is between its last pop and the reset of `busy`, with the
frame of two halves at hand. -/
structure Emptied (m : ℕ) (s : PooledProcess) : Prop where
  inv : s.Inv
  alive : s.crashed = false
  idle : s.pool.schedStage = .idle
  queue : s.pool.jobQueue = []
  threads : s.pool.threads = List.replicate m ⟨true, .emptied⟩
  max : s.pool.maxThreads = 2
  notRunning : s.algoCtrl.algoState ≠ .running
  ready : Ready s.normalizer
  provider : s.provider = ⟨halves, colorImageSize⟩

theorem emptied_start : Emptied 0 (start.step (.provider (some halves))) where
  inv := (inv_step _ _ inv_start).1
  alive := rfl
  idle := rfl
  queue := rfl
  threads := rfl
  max := rfl
  notRunning := by rintro ⟨⟩
  ready := ready_init
  provider := rfl

/-- A step of the last thread that is a step of the pool. -/
theorem step_thread_last (alive : s.crashed = false) {pre : List (Thread Unit)} {t : Thread Unit}
    (threads : s.pool.threads = pre ++ [t])
    (free : ∀ item, t.stage = .executing item → s.calls item.number = .idle) :
    s.step (.thread pre.length) = { s with pool := s.pool.step (.thread pre.length) } := by
  have hfound : s.pool.threads[pre.length]? = some t := by
    rw [threads, List.getElem?_concat_length]
  obtain ⟨busy, stage⟩ := t
  rw [step_of_alive alive]
  show s.threadRun pre.length = _
  rw [threadRun, hfound]
  cases stage with
  | executing item => simp only [if_pos (free item rfl)]; rfl
  | popping | emptied | available | waiting => rfl

/-- The frame at hand is scheduled, and as all threads are busy one is created. -/
theorem Emptied.sched {m : ℕ} (emptied : Emptied m s) (room : m < 2) :
    run step s (.algoCtrl :: List.replicate (m + 1) .scan) = { s with
      algoCtrl := ⟨halves, .running⟩
      pool := { s.pool with
        threads := List.replicate m ⟨true, .emptied⟩ ++ [.create]
        jobQueue := [⟨s.pool.pushed.length, ()⟩]
        pushed := s.pool.pushed ++ [⟨s.pool.pushed.length, ()⟩] }
      scheduled := s.scheduled ++ [(s.normalizer.averageIntensity, halves)] } := by
  have hrun := AlgoCtrlState.run_of_full s.algoCtrl
    (show s.provider.recBufferSize = colorImageSize by rw [emptied.provider])
  have hschedules : (s.algoCtrl.run s.provider).2.schedules = true := by
    rw [hrun]
    exact decide_eq_true emptied.notRunning
  obtain ⟨hnext, -⟩ := algoCtrlRun_of_schedules hschedules
  have halive : s.algoCtrlRun.crashed = false := by
    rw [hnext]
    exact emptied.alive
  have hbusy : ∀ t ∈ s.pool.threads, t.busy = true := by
    intro t ht
    rw [emptied.threads] at ht
    rw [List.eq_of_mem_replicate ht]
  have hlength : s.pool.threads.length = m := by rw [emptied.threads, List.length_replicate]
  have hroom : s.pool.HasRoom := by
    refine .inl ?_
    rw [hlength, emptied.max]
    omega
  have hpool := ThreadContext.run_sched_of_busy () emptied.idle hbusy
  rw [if_pos hroom, hlength, emptied.threads] at hpool
  rw [run_cons, step_of_alive emptied.alive]
  simp only [if_pos emptied.idle]
  rw [run_scan halive, hnext]
  simp only [hpool, hrun]
  rw [ThreadContext.pushQueueItem, emptied.queue, emptied.idle, emptied.provider]
  rfl

/-- The thread that has been created last takes up the job, completes it and finds the queue
empty. -/
theorem run_last_of_exec {pre : List (Thread Unit)} {item : QueueItem Unit}
    {after : NormalizerState} (alive : s.crashed = false)
    (threads : s.pool.threads = pre ++ [.create]) (queue : s.pool.jobQueue = [item])
    (queued : s.calls item.number = .queued)
    (completes : exec s.normalizer s.algoCtrl.recBuffer = some after) :
    ∃ n, run step s (List.replicate n (.thread pre.length)) = { s with
      algoCtrl := ⟨s.algoCtrl.recBuffer, .complete⟩
      normalizer := after
      pool := { s.pool with
        threads := pre ++ [⟨true, .emptied⟩]
        jobQueue := []
        popped := s.pool.popped ++ [item]
        freed := s.pool.freed ++ [item] }
      calls := Function.update s.calls item.number .idle
      outputs := s.outputs ++ [after.normalizedImage] } := by
  -- the item is popped
  have hpop := step_thread_last alive threads nofun
  rw [ThreadContext.step_last_pop threads queue] at hpop
  generalize hd : s.step (.thread pre.length) = d at hpop
  have hfound : d.pool.threads[pre.length]? = some ⟨true, .executing item⟩ := by
    rw [hpop]
    exact ThreadContext.getElem?_last rfl
  -- the call is made
  have hworks : Relation.ReflTransGen Works (d.withWorker (d.calls item.number)) _ :=
    works_of_exec (by rw [hpop]; exact queued)
      (show exec (d.withWorker _).normalizer d.algoCtrl.recBuffer = some after by
        rw [hpop]; exact completes)
  obtain ⟨n, hn⟩ := run_thread_of_works (by rw [hpop]; exact alive) hfound hworks
  generalize hd' : run step d (List.replicate n (.thread pre.length)) = d' at hn
  have hthreads : d'.pool.threads = pre ++ [⟨true, .executing item⟩] := by
    rw [hn, withCall, hpop]
  have halive : d'.crashed = false := by
    rw [hn, withCall, hpop]
    exact alive
  -- the item is freed
  have hfree := step_thread_last halive hthreads fun other h => by
    obtain rfl : item = other := ThreadStage.executing.inj h
    rw [hn]
    exact Function.update_self _ _ _
  rw [ThreadContext.step_last_free hthreads] at hfree
  generalize hd'' : d'.step (.thread pre.length) = d'' at hfree
  -- the queue is empty
  have hpopping : d''.pool.threads = pre ++ [⟨true, .popping⟩] := by rw [hfree]
  have hlast := step_thread_last (by rw [hfree]; exact halive) hpopping nofun
  rw [ThreadContext.step_last_empty hpopping (by rw [hfree, hn, withCall, hpop])] at hlast
  have hsplit : List.replicate (n + 3) (PooledAction.thread pre.length) =
      .thread pre.length :: (List.replicate n (.thread pre.length) ++
        [.thread pre.length, .thread pre.length]) := by
    rw [List.replicate_succ, List.replicate_add]
    rfl
  refine ⟨n + 3, ?_⟩
  rw [hsplit, run_cons, hd, run_append, hd', run_cons, hd'', run_cons, run_nil, hlast, hfree, hn,
    hpop]
  rfl

/-- A thread more: the job of the frame at hand finds all threads busy. -/
theorem Emptied.succ {m : ℕ} (emptied : Emptied m s) (room : m < 2) :
    ∃ actions, (∀ action ∈ actions, Prompted action) ∧ Emptied (m + 1) (run step s actions) := by
  have hready := ready_exec emptied.ready (exec_halves_of_ready emptied.ready)
  have hsched := emptied.sched room
  generalize hd : run step s (.algoCtrl :: List.replicate (m + 1) .scan) = d at hsched
  have hthreads : d.pool.threads = List.replicate m ⟨true, .emptied⟩ ++ [.create] := by rw [hsched]
  have hqueue : d.pool.jobQueue = [⟨s.pool.pushed.length, ()⟩] := by rw [hsched]
  obtain ⟨n, hn⟩ := run_last_of_exec (by rw [hsched]; exact emptied.alive) hthreads hqueue
    (by rw [hsched]; exact emptied.inv.fresh _ (Nat.le_refl _))
    (by rw [hsched]; exact exec_halves_of_ready emptied.ready)
  rw [List.length_replicate] at hn
  refine ⟨(.algoCtrl :: List.replicate (m + 1) .scan) ++ List.replicate n (.thread m),
    fun action haction => ?_, ?_⟩
  · rcases List.mem_append.mp haction with h | h
    · rcases List.mem_cons.mp h with rfl | h
      · trivial
      · rw [List.eq_of_mem_replicate h]
        trivial
    · rw [List.eq_of_mem_replicate h]
      trivial
  have hinv := (inv_run emptied.inv ((.algoCtrl :: List.replicate (m + 1) .scan) ++
    List.replicate n (.thread m))).1
  rw [run_append, hd] at hinv ⊢
  refine ⟨hinv, ?_, ?_, ?_, ?_, ?_, ?_, ?_, ?_⟩ <;> rw [hn, hsched]
  · exact emptied.alive
  · exact emptied.idle
  · exact List.replicate_succ'.symm
  · exact emptied.max
  · rintro ⟨⟩
  · exact hready
  · exact emptied.provider

/-- Two jobs come to be executed by a thread each, and leave both of them between their last
pop and the reset of `busy`. -/
theorem exists_late :
    ∃ actions, (∀ action ∈ actions, Prompted action) ∧ (run step start actions).Late := by
  obtain ⟨first, hfirst, hone⟩ := emptied_start.succ (by decide)
  obtain ⟨second, hsecond, htwo⟩ := hone.succ (by decide)
  rw [← run_append] at htwo
  refine ⟨.provider (some halves) :: (first ++ second), fun action haction => ?_, ?_⟩
  · rcases List.mem_cons.mp haction with rfl | h
    · trivial
    · exact (List.mem_append.mp h).elim (hfirst action) (hsecond action)
  · rw [run_cons]
    exact {
      alive := htwo.alive
      idle := htwo.idle
      frame := by rw [htwo.provider]
      notRunning := htwo.notRunning
      emptied := fun t ht => by
        rw [htwo.threads] at ht
        exact List.eq_of_mem_replicate ht
      full := by
        rw [ThreadContext.HasRoom, htwo.threads, htwo.max]
        decide }

/-- **The pipeline stops for good**, without any failure, where a frame is scheduled while
both threads are between their last pop and the reset of `busy`: there is a way on from
which, whatever frames come and whatever the threads do, nothing is scheduled or put out
again. -/
theorem stalls_of_late (before : List PooledAction) (late : (run step start before).Late) :
    let d := run step start (before ++ .algoCtrl ::
      List.replicate ((run step start before).pool.threads.length + 1) .scan)
    d.algoCtrl.algoState = .running ∧ d.pool.jobQueue ≠ [] ∧
      ∀ more, (∀ action ∈ more, Prompted action) →
        (run step d more).algoCtrl.algoState = .running ∧
          (run step d more).scheduled = d.scheduled ∧ (run step d more).outputs = d.outputs := by
  intro d
  have hstalled : d.Stalled := by
    have h := late.stalled
    rwa [← run_append] at h
  refine ⟨hstalled.running, hstalled.pool.queue, fun more hmore => ?_⟩
  obtain ⟨hlater, houtputs, hscheduled, -⟩ := hstalled.run hmore
  exact ⟨hlater.running, hscheduled, houtputs⟩

/-- It comes to that after two frames. -/
theorem stalls_behind_two_frames :
    ∃ actions, (∀ action ∈ actions, Prompted action) ∧
      let d := run step start actions
      d.pool.jobQueue ≠ [] ∧ ∀ more, (∀ action ∈ more, Prompted action) →
        (run step d more).algoCtrl.algoState = .running ∧
          (run step d more).scheduled = d.scheduled ∧ (run step d more).outputs = d.outputs := by
  obtain ⟨before, hbefore, hlate⟩ := exists_late
  refine ⟨_, fun action haction => ?_, (stalls_of_late before hlate).2⟩
  rcases List.mem_append.mp haction with h | h
  · exact hbefore action h
  rcases List.mem_cons.mp h with rfl | h
  · trivial
  · rw [List.eq_of_mem_replicate h]
    trivial

end PooledProcess

end PiVision
