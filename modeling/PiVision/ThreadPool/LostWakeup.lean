import PiVision.ThreadPool.Progress

/-!
# The wake-up that is lost

Between its last pop and the reset of `busy` a thread counts as busy although it will not
look at the queue again. A job that is scheduled while every thread stands there, with no
room for another one, can stay in the queue until some later job wakes a thread up. The
same happens to a job that meets a thread whose wait has ended spuriously: such a thread
executes jobs without being marked as busy.
-/

namespace PiVision

namespace ThreadContext

open Machine

variable {J : Type*} {c : ThreadContext J}

/-- A step of what is under way: nothing is scheduled, and no wake-up is spurious. -/
def Internal : ThreadPoolAction J → Prop
  | .scan | .thread _ => True
  | .sched _ | .spurious _ => False

theorem Internal.inTime {action : ThreadPoolAction J} (internal : Internal action)
    (c : ThreadContext J) : c.InTime action := by
  cases action with
  | scan | thread => trivial
  | sched | spurious => exact internal.elim

theorem internal_turns (n : ℕ) : Internal (turns n : ThreadPoolAction J) := by
  rw [turns]
  split <;> trivial

/-- The thread is going to wait, or waits, and nobody has notified it. -/
def Drowsy (t : Thread J) : Prop :=
  match t.stage with
  | .emptied => True
  | .available | .waiting false => t.busy = false
  | .popping | .executing _ | .waiting true => False

/-- There are jobs, and nobody who will look at the queue by himself. -/
structure Stranded (c : ThreadContext J) : Prop where
  idle : c.schedStage = .idle
  queue : c.jobQueue ≠ []
  drowsy : ∀ t ∈ c.threads, Drowsy t

theorem Stranded.step {action : ThreadPoolAction J} (stranded : c.Stranded)
    (internal : Internal action) :
    (c.step action).Stranded ∧ (c.step action).jobQueue = c.jobQueue := by
  refine step_preserves (P := fun d => d.Stranded ∧ d.jobQueue = c.jobQueue) action
    ⟨stranded, rfl⟩ fun c' moves => ?_
  have hset {index : ℕ} {t : Thread J} (drowsy : Drowsy t) :
      (c.setThread index t).Stranded ∧ (c.setThread index t).jobQueue = c.jobQueue := by
    refine ⟨⟨stranded.idle, stranded.queue, fun u hu => ?_⟩, rfl⟩
    rcases mem_setThread hu with hold | rfl
    · exact stranded.drowsy u hold
    · exact drowsy
  have hidle := stranded.idle
  cases moves with
  | push | wakeSpuriously => exact internal.elim
  | pass index thread scanning | notify index thread scanning | create index scanning
  | giveUp index scanning =>
    rw [hidle] at scanning
    cases scanning
  | reset index busy found => exact hset rfl
  | wait index found => exact hset rfl
  -- a drowsy thread does nothing else
  | pop index busy item rest found | empty index busy found | free index busy item found
  | wake index busy found => exact (stranded.drowsy _ (List.mem_of_getElem? found)).elim
  | again index found => exact nomatch stranded.drowsy _ (List.mem_of_getElem? found)

theorem Stranded.run {actions : List (ThreadPoolAction J)} (stranded : c.Stranded)
    (internal : ∀ action ∈ actions, Internal action) :
    (run ThreadContext.step c actions).jobQueue = c.jobQueue := by
  induction actions generalizing c with
  | nil => rfl
  | cons action actions ih =>
    obtain ⟨hnext, hqueue⟩ := stranded.step (internal action List.mem_cons_self)
    rw [run_cons, ih hnext fun a ha => internal a (List.mem_cons_of_mem _ ha), hqueue]

/-- The call of `sched_job` looks at one busy thread after the other, and creates one if it
may. -/
theorem run_scan_of_busy {index : ℕ} (scanning : c.schedStage = .scanning index)
    (busy : ∀ t ∈ c.threads, t.busy = true) :
    run step c (List.replicate (c.threads.length - index + 1) .scan) =
      { c with
        threads := if c.HasRoom then c.threads ++ [.create] else c.threads
        schedStage := .idle } := by
  induction hd : c.threads.length - index generalizing c index with
  | zero =>
    have hnone : c.threads[index]? = none := List.getElem?_eq_none_iff.mpr (by omega)
    show c.scan = _
    by_cases hroom : c.HasRoom
    · simp only [scan, scanning, hnone, if_pos hroom, createThread]
    · simp only [scan, scanning, hnone, if_neg hroom]
  | succ d ih =>
    have hlt : index < c.threads.length := by omega
    have hbusy := busy _ (List.getElem_mem hlt)
    have hscan : c.scan = { c with schedStage := .scanning (index + 1) } := by
      simp only [scan, scanning, List.getElem?_eq_getElem hlt, hbusy, if_true]
    rw [List.replicate_succ, run_cons]
    show run step c.scan _ = _
    rw [hscan]
    exact ih rfl busy (by simp only; omega)

/-- A job that is scheduled while every thread is busy. -/
theorem run_sched_of_busy (job : J) (idle : c.schedStage = .idle)
    (busy : ∀ t ∈ c.threads, t.busy = true) :
    run step (c.schedJob job) (List.replicate (c.threads.length + 1) .scan) =
      { c.pushQueueItem ⟨c.pushed.length, job⟩ with
        threads := if c.HasRoom then c.threads ++ [.create] else c.threads
        schedStage := .idle } := by
  rw [schedJob_of_idle idle]
  exact run_scan_of_busy (c := { c.pushQueueItem ⟨c.pushed.length, job⟩ with
    schedStage := .scanning 0 }) rfl busy

/-! ### The steps of the thread that has been created last -/

section LastThread

variable {pre : List (Thread J)} {t : Thread J}

theorem setThread_last (threads : c.threads = pre ++ [t]) (u : Thread J) :
    c.setThread pre.length u = { c with threads := pre ++ [u] } := by
  rw [setThread, threads, List.set_append_right _ _ (Nat.le_refl _), Nat.sub_self,
    List.set_cons_zero]

theorem getElem?_last (threads : c.threads = pre ++ [t]) :
    c.threads[pre.length]? = some t := by
  rw [threads, List.getElem?_concat_length]

theorem step_last_pop {busy : Bool} {item : QueueItem J} {rest : List (QueueItem J)}
    (threads : c.threads = pre ++ [⟨busy, .popping⟩]) (queue : c.jobQueue = item :: rest) :
    c.step (.thread pre.length) = { c with
      threads := pre ++ [⟨busy, .executing item⟩]
      jobQueue := rest
      popped := c.popped ++ [item] } := by
  show c.poolThreadFunc pre.length = _
  simp only [poolThreadFunc, getElem?_last threads, popQueueItem, queue]
  exact setThread_last (c := { c with jobQueue := rest, popped := c.popped ++ [item] }) threads _

theorem step_last_empty {busy : Bool} (threads : c.threads = pre ++ [⟨busy, .popping⟩])
    (queue : c.jobQueue = []) :
    c.step (.thread pre.length) = { c with threads := pre ++ [⟨busy, .emptied⟩] } := by
  show c.poolThreadFunc pre.length = _
  simp only [poolThreadFunc, getElem?_last threads, popQueueItem, queue]
  exact (setThread_last threads _).trans (by rw [queue])

theorem step_last_free {busy : Bool} {item : QueueItem J}
    (threads : c.threads = pre ++ [⟨busy, .executing item⟩]) :
    c.step (.thread pre.length) = { c with
      threads := pre ++ [⟨busy, .popping⟩]
      freed := c.freed ++ [item] } := by
  show c.poolThreadFunc pre.length = _
  simp only [poolThreadFunc, getElem?_last threads, setThread_last threads]

end LastThread

/-- A job that is scheduled while every thread is between its last pop and the reset of
`busy` is stranded, if none comes to the reset while `sched_job` looks at the threads. -/
theorem stranded_of_late (job : J) (idle : c.schedStage = .idle)
    (busy : ∀ t ∈ c.threads, t.busy = true) (emptied : ∀ t ∈ c.threads, t.stage = .emptied)
    (full : ¬c.HasRoom) :
    let d := run step (c.schedJob job) (List.replicate (c.threads.length + 1) .scan)
    d.Stranded ∧ ⟨c.pushed.length, job⟩ ∈ d.jobQueue := by
  intro d
  have hd : d = { c.pushQueueItem ⟨c.pushed.length, job⟩ with schedStage := .idle } := by
    refine (run_sched_of_busy job idle busy).trans ?_
    rw [if_neg full]
    rfl
  have hmem : ⟨c.pushed.length, job⟩ ∈ d.jobQueue := by
    rw [hd]
    exact List.mem_append_right _ (List.mem_singleton_self _)
  refine ⟨⟨by rw [hd], List.ne_nil_of_mem hmem, fun t ht => ?_⟩, hmem⟩
  rw [hd] at ht
  rw [Drowsy, emptied t ht]
  trivial

/-- What it is for a job not to be scheduled in time. -/
theorem late_of_not_inTime {job : J} (attended : c.Attended) (late : ¬c.InTime (.sched job)) :
    ¬c.HasRoom ∧ (∀ t ∈ c.threads, t.stage = .emptied) ∧ ∀ t ∈ c.threads, t.busy = true := by
  have hemptied : ∀ t ∈ c.threads, t.stage = .emptied := by
    intro t hmem
    by_contra hstage
    exact late fun _ => .inr ⟨t, hmem, hstage⟩
  refine ⟨fun hroom => late fun _ => .inl hroom, hemptied, fun t hmem => ?_⟩
  have hconsistent := attended.consistent t hmem
  rwa [Thread.Consistent, hemptied t hmem] at hconsistent

/-- From a context whose jobs are attended to, what is under way takes up every item that
has been pushed. -/
theorem exists_internal_freed (each : c.EachOnce) (attended : c.Attended) {item : QueueItem J}
    (pushed : item ∈ c.pushed) :
    ∃ more, (∀ action ∈ more, Internal action) ∧ item ∉ (run step c more).jobQueue := by
  have hrun : InTimeRun c turns :=
    ⟨each, attended, fun n => (internal_turns n).inTime _⟩
  obtain ⟨m, -, hfreed⟩ := exists_freed_of_pushed (n := 0) hrun fair_turns pushed
  refine ⟨(List.range m).map turns, ?_, fun hqueue => ?_⟩
  · intro action hmem
    obtain ⟨n, -, rfl⟩ := List.mem_map.mp hmem
    exact internal_turns n
  · rw [← stateAt_eq_run] at hqueue
    have hnodup := (hrun.each_at m).nodup
    exact (List.nodup_append.mp hnodup).2.2 item (List.mem_append_left _ hfreed) item hqueue rfl

theorem run_internal {actions : List (ThreadPoolAction J)} {item : QueueItem J}
    (internal : ∀ action ∈ actions, Internal action) (each : c.EachOnce)
    (attended : c.Attended) (pushed : item ∈ c.pushed) :
    let d := run step c actions
    d.EachOnce ∧ d.Attended ∧ item ∈ d.pushed := by
  have hkeeps (d : ThreadContext J) (action : ThreadPoolAction J)
      (inv : d.EachOnce ∧ d.Attended ∧ item ∈ d.pushed) (h : Internal action) :
      (d.step action).EachOnce ∧ (d.step action).Attended ∧ item ∈ (d.step action).pushed :=
    ⟨eachOnce_step d action inv.1, attended_step d action inv.2.1 (h.inTime d),
      (prefix_step d action).1.subset inv.2.2⟩
  exact run_invariant_along hkeeps ⟨each, attended, pushed⟩
    (along_of_forall_mem (fun _ _ h => h) c internal)

/-- **A job can be stranded** exactly if it is scheduled while every thread is between its
last pop and the reset of `busy`, with no room for another one: only then can the steps of
the caller and of the threads come to a point from where none of their steps takes the job
out of the queue. -/
theorem strands_iff_not_inTime (maxThreads : UInt32) (before : List (ThreadPoolAction J))
    (inTime : Along step InTime (initThreadPool maxThreads) before)
    (idle : (run step (initThreadPool maxThreads) before).schedStage = .idle) (job : J) :
    let c := run step (initThreadPool maxThreads) before
    ¬c.InTime (.sched job) ↔
      ∃ actions, (∀ action ∈ actions, Internal action) ∧
        ∀ more, (∀ action ∈ more, Internal action) →
          ⟨c.pushed.length, job⟩ ∈ (run step (c.schedJob job) (actions ++ more)).jobQueue := by
  intro c
  have heach : c.EachOnce :=
    run_invariant step eachOnce_step (eachOnce_initThreadPool maxThreads) before
  have hattended : c.Attended :=
    run_invariant_along attended_step (attended_initThreadPool maxThreads) inTime
  constructor
  · intro hlate
    obtain ⟨hfull, hemptied, hbusy⟩ := late_of_not_inTime hattended hlate
    obtain ⟨hstranded, hmem⟩ := stranded_of_late job idle hbusy hemptied hfull
    refine ⟨List.replicate (c.threads.length + 1) .scan, fun action haction => ?_,
      fun more hmore => ?_⟩
    · obtain rfl := List.eq_of_mem_replicate haction
      trivial
    · rw [run_append, hstranded.run hmore]
      exact hmem
  · rintro ⟨actions, hactions, hstays⟩ hinTime
    have hpushed : ⟨c.pushed.length, job⟩ ∈ (c.schedJob job).pushed := by
      rw [schedJob_of_idle (show c.schedStage = .idle from idle)]
      exact List.mem_append_right _ (List.mem_singleton_self _)
    obtain ⟨heach', hattended', hpushed'⟩ := run_internal hactions
      (eachOnce_step c (.sched job) heach) (attended_step c (.sched job) hattended hinTime) hpushed
    obtain ⟨more, hmore, hfreed⟩ := exists_internal_freed heach' hattended' hpushed'
    have hqueue := hstays more hmore
    rw [run_append] at hqueue
    exact hfreed hqueue

/-- The first job finds no thread, and the second one is scheduled while the thread of the
first is between its last pop and the reset of `busy`. -/
theorem strands_iff_not_inTime_twoJobs :
    let c := run step (initThreadPool 1) [.sched 0, .scan, .thread 0, .thread 0, .thread 0]
    ¬c.InTime (.sched 1) ↔
      ∃ actions, (∀ action ∈ actions, Internal action) ∧
        ∀ more, (∀ action ∈ more, Internal action) →
          ⟨c.pushed.length, 1⟩ ∈ (run step (c.schedJob 1) (actions ++ more)).jobQueue := by
  apply strands_iff_not_inTime
  · simp only [along_cons, along_nil]
    decide
  · decide

/-! ### A spurious wake-up -/

/-- A thread that waits and has not been notified is not marked as busy, spurious wake-ups or
not. -/
def Asleep (c : ThreadContext J) : Prop :=
  ∀ t ∈ c.threads, t.stage = .waiting false → t.busy = false

theorem asleep_initThreadPool (maxThreads : UInt32) :
    (initThreadPool maxThreads : ThreadContext J).Asleep := by
  rintro t ⟨⟩

theorem notify_stage_ne (t : Thread J) : t.notify.stage ≠ .waiting false := by
  obtain ⟨busy, stage⟩ := t
  cases stage <;> rintro ⟨⟩

theorem asleep_step (c : ThreadContext J) (action : ThreadPoolAction J) (asleep : c.Asleep) :
    (c.step action).Asleep := by
  refine step_preserves (P := Asleep) action asleep fun c' moves => ?_
  -- a thread that a move leaves waiting has set its mark before
  have hset {index : ℕ} {u : Thread J} (mark : u.stage = .waiting false → u.busy = false) :
      (c.setThread index u).Asleep := by
    intro t hmem hstage
    rcases mem_setThread hmem with hold | rfl
    · exact asleep t hold hstage
    · exact mark hstage
  cases moves with
  | push | pass | giveUp => exact asleep
  | notify index thread => exact hset fun h => absurd h (notify_stage_ne thread)
  | create =>
    intro t hmem hstage
    rcases List.mem_append.mp hmem with hold | hnew
    · exact asleep t hold hstage
    · rw [List.mem_singleton.mp hnew] at hstage
      cases hstage
  | wait => exact hset fun _ => rfl
  | pop | empty | free | reset | again | wake | wakeSpuriously => exact hset (by rintro ⟨⟩)

/-- A thread that looks at the queue executes all that is in it, if nobody else moves. -/
theorem run_drain {busy : Bool} {ts : List (Thread J)}
    (threads : c.threads = ⟨busy, .popping⟩ :: ts) :
    run step c (.replicate (2 * c.jobQueue.length) (.thread 0)) =
      { c with
        jobQueue := []
        popped := c.popped ++ c.jobQueue
        freed := c.freed ++ c.jobQueue } := by
  obtain ⟨_, maxThreads, queue, stage, pushed, popped, freed⟩ := c
  obtain rfl := threads
  simp only
  induction queue generalizing popped freed with
  | nil => simp
  | cons item rest ih =>
    have hsteps : 2 * (item :: rest).length = 2 * rest.length + 1 + 1 := by
      rw [List.length_cons]
      omega
    rw [hsteps, List.replicate_succ, List.replicate_succ, run_cons, run_cons]
    refine (ih (popped ++ [item]) (freed ++ [item])).trans ?_
    simp only [List.append_assoc, List.singleton_append]

/-- The first thread wakes up spuriously, executes what is in the queue, and finds it empty. A
job is scheduled before the thread resets `busy`, and then it waits. -/
def spuriousSteps (queued : ℕ) (job : J) : List (ThreadPoolAction J) :=
  .spurious 0 :: .replicate (2 * queued + 1) (.thread 0) ++
    [.sched job, .scan, .thread 0, .thread 0]

theorem run_spuriousSteps {ts : List (Thread J)} (idle : c.schedStage = .idle)
    (threads : c.threads = ⟨false, .waiting false⟩ :: ts) (job : J) :
    run step c (spuriousSteps c.jobQueue.length job) =
      { c with
        jobQueue := [⟨c.pushed.length, job⟩]
        pushed := c.pushed ++ [⟨c.pushed.length, job⟩]
        popped := c.popped ++ c.jobQueue
        freed := c.freed ++ c.jobQueue } := by
  obtain ⟨_, maxThreads, queue, _, pushed, popped, freed⟩ := c
  obtain rfl := idle
  obtain rfl := threads
  have hdrain := run_drain (c := ⟨⟨false, .popping⟩ :: ts, maxThreads, queue, .idle, pushed,
    popped, freed⟩) rfl
  rw [spuriousSteps, List.replicate_succ', List.cons_append, run_cons, run_append, run_append]
  show run step (step (run step ⟨⟨false, .popping⟩ :: ts, maxThreads, queue, .idle, pushed,
    popped, freed⟩ _) (.thread 0)) _ = _
  rw [hdrain]
  rfl

/-- **A spurious wake-up strands a job**, whatever room there is: from every pool at rest
that has got a thread there is a way to a pool at rest with a job in its queue, with one
spurious wake-up, one call of `sched_job` and otherwise steps of what is under way. -/
theorem spurious_strands (maxThreads : UInt32) (before : List (ThreadPoolAction J))
    (rest : (run step (initThreadPool maxThreads) before).AtRest)
    (some : (run step (initThreadPool maxThreads) before).threads ≠ []) (job : J) :
    let c := run step (initThreadPool maxThreads) before
    let d := run step c (spuriousSteps c.jobQueue.length job)
    d.AtRest ∧ d.jobQueue = [⟨c.pushed.length, job⟩] ∧
      ∀ more, (∀ action ∈ more, Internal action) → (run step d more).jobQueue = d.jobQueue := by
  intro c d
  have hasleep : c.Asleep :=
    run_invariant step asleep_step (asleep_initThreadPool maxThreads) before
  have hrest : c.AtRest := rest
  have hwaits : ∀ t ∈ c.threads, t = ⟨false, .waiting false⟩ := by
    intro t hmem
    have hstage := hrest.2 t hmem
    have hbusy := hasleep t hmem hstage
    obtain ⟨busy, stage⟩ := t
    rw [show busy = false from hbusy, show stage = .waiting false from hstage]
  obtain ⟨t, ts, hthreads⟩ := List.exists_cons_of_ne_nil (show c.threads ≠ [] from some)
  obtain rfl := hwaits t (hthreads ▸ List.mem_cons_self)
  have hd : d = { c with
      jobQueue := [⟨c.pushed.length, job⟩]
      pushed := c.pushed ++ [⟨c.pushed.length, job⟩]
      popped := c.popped ++ c.jobQueue
      freed := c.freed ++ c.jobQueue } := run_spuriousSteps hrest.1 hthreads job
  have hstranded : d.Stranded := by
    rw [hd]
    refine ⟨hrest.1, List.cons_ne_nil _ _, fun u hu => ?_⟩
    rw [hwaits u hu]
    exact rfl
  refine ⟨?_, by rw [hd], fun more hmore => hstranded.run hmore⟩
  rw [hd]
  exact hrest

/-- A pool whose threads are not limited, at rest with a job that an earlier spurious wake-up
has left in its queue. -/
theorem spurious_strands_again :
    let c := run step (initThreadPool 0)
      ([.sched 0, .scan] ++ .replicate 5 (.thread 0) ++ spuriousSteps 0 1)
    let d := run step c (spuriousSteps c.jobQueue.length 2)
    d.AtRest ∧ d.jobQueue = [⟨c.pushed.length, 2⟩] ∧
      ∀ more, (∀ action ∈ more, Internal action) → (run step d more).jobQueue = d.jobQueue := by
  apply spurious_strands
  · exact ⟨by decide, by decide⟩
  · decide

end ThreadContext

end PiVision
