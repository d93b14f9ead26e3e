import PiVision.ThreadPool.Jobs
import Mathlib.Data.Nat.Pairing

/-!
# No job is left behind

A thread that `sched_job` finds busy is trusted to look at the queue again. It does, unless
it has found the queue empty already and has only not come to reset `busy`. So a job is
executed as long as, when it is scheduled, some thread stands elsewhere or there is room
for a new one, and no thread wakes up without having been notified.
-/

namespace PiVision

namespace ThreadContext

open Machine

variable {J : Type*} {c c' : ThreadContext J}

/-- The step is no spurious wake-up, and a job that is scheduled in it finds room for a
thread, or a thread that is not between its last pop and the reset of `busy`. -/
def InTime (c : ThreadContext J) : ThreadPoolAction J → Prop
  | .sched _ => c.schedStage = .idle → c.HasRoom ∨ ∃ t ∈ c.threads, t.stage ≠ .emptied
  | .scan | .thread _ => True
  | .spurious _ => False

instance [DecidableEq J] (c : ThreadContext J) : DecidablePred c.InTime
  | .sched _ => inferInstanceAs (Decidable (_ → _))
  | .scan | .thread _ => .isTrue trivial
  | .spurious _ => .isFalse id

/-- Every thread waits for a job, and nobody is scheduling one. -/
def AtRest (c : ThreadContext J) : Prop :=
  c.schedStage = .idle ∧ ∀ t ∈ c.threads, t.stage = .waiting false

/-- The call of `sched_job` will find a thread for its job, or create one. -/
def Recruits (c : ThreadContext J) : Prop :=
  ∃ index, c.schedStage = .scanning index ∧
    (c.HasRoom ∨ ∃ j t, index ≤ j ∧ c.threads[j]? = some t ∧ t.busy = false)

/-- Jobs in the queue have somebody who will take them up. -/
structure Attended (c : ThreadContext J) : Prop where
  consistent : ∀ t ∈ c.threads, t.Consistent
  queue : c.jobQueue ≠ [] → (∃ t ∈ c.threads, t.Awake) ∨ c.Recruits

theorem hasRoom_of_same (max : c'.maxThreads = c.maxThreads)
    (length : c'.threads.length = c.threads.length) (room : c.HasRoom) : c'.HasRoom := by
  rw [HasRoom, max, length]
  exact room

theorem Attended.get (attended : c.Attended) {index : ℕ} {t : Thread J}
    (found : c.threads[index]? = some t) : t.Consistent :=
  attended.consistent t (List.mem_of_getElem? found)

theorem mem_setThread {index : ℕ} {t u : Thread J}
    (mem : u ∈ (c.setThread index t).threads) : u ∈ c.threads ∨ u = t :=
  List.mem_or_eq_of_mem_set mem

theorem self_mem_setThread {index : ℕ} {t u : Thread J} (found : c.threads[index]? = some t) :
    u ∈ (c.setThread index u).threads := by
  obtain ⟨pre, post, -, hset⟩ := exists_split found
  rw [setThread, hset u]
  exact List.mem_append_right _ List.mem_cons_self

/-- A thread that stays awake, if it was, leaves some thread awake, if one was. -/
theorem exists_awake_setThread {index : ℕ} {t u : Thread J}
    (found : c.threads[index]? = some t) (awake : t.Awake → u.Awake)
    (some : ∃ v ∈ c.threads, v.Awake) : ∃ v ∈ (c.setThread index u).threads, v.Awake := by
  obtain ⟨v, hmem, hv⟩ := some
  obtain ⟨pre, post, hthreads, hset⟩ := exists_split found
  rw [hthreads, List.mem_append, List.mem_cons] at hmem
  rw [setThread, hset u]
  rcases hmem with hpre | rfl | hpost
  · exact ⟨v, List.mem_append_left _ hpre, hv⟩
  · exact ⟨u, List.mem_append_right _ List.mem_cons_self, awake hv⟩
  · exact ⟨v, List.mem_append_right _ (List.mem_cons_of_mem _ hpost), hv⟩

/-- A thread that stays free, if it was, leaves the call of `sched_job` what it will
find. -/
theorem recruits_setThread {index : ℕ} {t u : Thread J} (found : c.threads[index]? = some t)
    (free : t.busy = false → u.busy = false) (recruits : c.Recruits) :
    (c.setThread index u).Recruits := by
  obtain ⟨k, hscan, hroom | ⟨j, v, hle, hv, hfree⟩⟩ := recruits
  · exact ⟨k, hscan, .inl (hasRoom_of_same (c := c) rfl List.length_set hroom)⟩
  refine ⟨k, hscan, .inr ?_⟩
  have hlt := (List.getElem?_eq_some_iff.mp found).1
  by_cases hsame : index = j
  · subst hsame
    obtain rfl := Option.some.inj (found.symm.trans hv)
    exact ⟨index, u, hle, List.getElem?_set_self hlt, free hfree⟩
  · exact ⟨j, v, hle, (List.getElem?_set_ne hsame).trans hv, hfree⟩

/-- A thread that makes nothing worse. -/
theorem Attended.setThread {index : ℕ} {t u : Thread J} (attended : c.Attended)
    (found : c.threads[index]? = some t) (consistent : u.Consistent)
    (awake : t.Awake → u.Awake) (free : t.busy = false → u.busy = false) :
    (c.setThread index u).Attended where
  consistent v hv := by
    rcases mem_setThread hv with hold | rfl
    · exact attended.consistent v hold
    · exact consistent
  queue hqueue := by
    rcases attended.queue hqueue with hawake | hrecruits
    · exact .inl (exists_awake_setThread found awake hawake)
    · exact .inr (recruits_setThread found free hrecruits)

theorem awake_popping : (⟨true, .popping⟩ : Thread J).Awake := ⟨rfl, nofun⟩

theorem awake_executing (item : QueueItem J) : (⟨true, .executing item⟩ : Thread J).Awake :=
  ⟨rfl, nofun⟩

theorem consistent_notify {t : Thread J} : t.notify.Consistent := by
  obtain ⟨busy, stage⟩ := t
  cases stage <;> first | rfl | trivial

/-- A free thread that tells the truth of itself is awake once it has been notified. -/
theorem awake_notify {t : Thread J} (consistent : t.Consistent) (free : t.busy = false) :
    t.notify.Awake := by
  obtain ⟨busy, stage⟩ := t
  obtain rfl : busy = false := free
  cases stage with
  | emptied => cases consistent
  | popping | executing | available | waiting => exact ⟨rfl, nofun⟩

theorem Attended.of_moves {action : ThreadPoolAction J} (attended : c.Attended)
    (inTime : c.InTime action) (moves : c.Moves action c') : c'.Attended := by
  cases moves with
  | push job idle =>
    refine ⟨attended.consistent, fun _ => ?_⟩
    rcases inTime idle with hroom | ⟨t, hmem, hstage⟩
    · exact .inr ⟨0, rfl, .inl hroom⟩
    cases hbusy : t.busy with
    | true => exact .inl ⟨t, hmem, hbusy, hstage⟩
    | false =>
      obtain ⟨j, hj⟩ := List.mem_iff_getElem?.mp hmem
      exact .inr ⟨0, rfl, .inr ⟨j, t, Nat.zero_le j, hj, hbusy⟩⟩
  | pass index thread scanning found busy =>
    refine ⟨attended.consistent, fun hqueue => ?_⟩
    rcases attended.queue hqueue with hawake | ⟨k, hscan, hfree⟩
    · exact .inl hawake
    obtain rfl : index = k := SchedStage.scanning.inj (scanning.symm.trans hscan)
    refine .inr ⟨index + 1, rfl, hfree.imp_right ?_⟩
    -- the free thread is not the one that has been found busy
    rintro ⟨j, t, hle, hj, hidle⟩
    have hne : index ≠ j := by
      rintro rfl
      obtain rfl := Option.some.inj (found.symm.trans hj)
      rw [hidle] at busy
      cases busy
    exact ⟨j, t, Nat.lt_of_le_of_ne hle hne, hj, hidle⟩
  | notify index thread scanning found free =>
    refine ⟨fun u hu => ?_, fun _ => .inl ?_⟩
    · rcases mem_setThread hu with hold | rfl
      · exact attended.consistent u hold
      · exact consistent_notify
    · exact ⟨thread.notify, self_mem_setThread found, awake_notify (attended.get found) free⟩
  | create index scanning last room =>
    refine ⟨fun u hu => ?_, fun _ => .inl ⟨.create, ?_, awake_popping⟩⟩
    · rcases List.mem_append.mp hu with hold | hnew
      · exact attended.consistent u hold
      · rw [List.mem_singleton.mp hnew]
        exact rfl
    · exact List.mem_append_right _ (List.mem_singleton_self _)
  | giveUp index scanning last full =>
    refine ⟨attended.consistent, fun hqueue => ?_⟩
    rcases attended.queue hqueue with hawake | ⟨k, hscan, hroom | ⟨j, t, hle, hj, -⟩⟩
    · exact .inl hawake
    · exact absurd hroom full
    · obtain rfl : index = k := SchedStage.scanning.inj (scanning.symm.trans hscan)
      have := (List.getElem?_eq_some_iff.mp hj).1
      omega
  | pop index busy item rest found queue =>
    obtain rfl : busy = true := attended.get found
    have hnext := attended.setThread (u := ⟨true, .executing item⟩) found rfl
      (fun _ => awake_executing item) id
    exact ⟨hnext.consistent, fun _ => hnext.queue (by simp [ThreadContext.setThread, queue])⟩
  | empty index busy found queue =>
    have hbusy : busy = true := attended.get found
    refine ⟨fun u hu => ?_, fun hqueue => absurd queue hqueue⟩
    rcases mem_setThread hu with hold | rfl
    · exact attended.consistent u hold
    · exact hbusy
  | free index busy item found =>
    obtain rfl : busy = true := attended.get found
    have hnext := attended.setThread (u := ⟨true, .popping⟩) found rfl
      (fun _ => awake_popping) id
    exact ⟨hnext.consistent, hnext.queue⟩
  | reset index busy found =>
    exact attended.setThread found trivial (fun hawake => absurd rfl hawake.2) fun _ => rfl
  | again index found =>
    exact attended.setThread found rfl (fun _ => awake_popping) id
  | wait index found =>
    exact attended.setThread found rfl (fun hawake => absurd hawake.1 Bool.false_ne_true) id
  | wake index busy found =>
    obtain rfl : busy = true := attended.get found
    exact attended.setThread found rfl (fun _ => awake_popping) id
  | wakeSpuriously index busy signalled found => exact inTime.elim

theorem attended_step (c : ThreadContext J) (action : ThreadPoolAction J)
    (attended : c.Attended) (inTime : c.InTime action) : (c.step action).Attended :=
  step_preserves action attended fun _ => attended.of_moves inTime

theorem attended_initThreadPool (maxThreads : UInt32) :
    (initThreadPool maxThreads : ThreadContext J).Attended :=
  ⟨fun _ => List.not_mem_nil.elim, fun hqueue => absurd rfl hqueue⟩

/-! ## A pool at rest -/

theorem Attended.not_awake_of_atRest (attended : c.Attended) (rest : c.AtRest) :
    ¬∃ t ∈ c.threads, t.Awake := by
  rintro ⟨t, hmem, hbusy, -⟩
  have hconsistent := attended.consistent t hmem
  rw [Thread.Consistent, rest.2 t hmem, hbusy] at hconsistent
  cases hconsistent

theorem Attended.jobQueue_of_atRest (attended : c.Attended) (rest : c.AtRest) :
    c.jobQueue = [] := by
  by_contra hqueue
  rcases attended.queue hqueue with hawake | ⟨index, hscan, -⟩
  · exact attended.not_awake_of_atRest rest hawake
  · rw [rest.1] at hscan
    cases hscan

theorem executing_of_atRest (rest : c.AtRest) : c.executing = [] := by
  apply List.filterMap_eq_nil_iff.mpr
  intro t hmem
  rw [Thread.item, rest.2 t hmem]

/-- **At rest everything is done.** Where each job is scheduled in time, a pool whose
threads all wait has executed every job it has been given, and freed its item. -/
theorem jobs_freed_at_rest (maxThreads : UInt32) (actions : List (ThreadPoolAction J))
    (inTime : Along step InTime (initThreadPool maxThreads) actions)
    (rest : (run step (initThreadPool maxThreads) actions).AtRest) :
    let c := run step (initThreadPool maxThreads) actions
    c.jobQueue = [] ∧ c.pushed.Perm c.freed := by
  intro c
  have heach : c.EachOnce :=
    run_invariant step eachOnce_step (eachOnce_initThreadPool maxThreads) actions
  have hattended : c.Attended :=
    run_invariant_along attended_step (attended_initThreadPool maxThreads) inTime
  have hqueue := hattended.jobQueue_of_atRest rest
  refine ⟨hqueue, ?_⟩
  have honce := heach.once
  rwa [executing_of_atRest rest, List.append_nil, ← List.append_nil c.popped, ← hqueue,
    ← heach.order] at honce

/-- Two jobs, the second of which is scheduled while the only thread executes the first. -/
theorem jobs_freed_at_rest_twoJobs :
    let c := run step (initThreadPool 1) [.sched 0, .scan, .thread 0, .sched 1, .scan, .scan,
      .thread 0, .thread 0, .thread 0, .thread 0, .thread 0, .thread 0]
    c.jobQueue = [] ∧ c.pushed.Perm c.freed := by
  apply jobs_freed_at_rest
  · simp only [along_cons, along_nil]
    decide
  · exact ⟨by decide, by decide⟩

/-! ## Infinite runs -/

/-- The caller of `sched_job` and every thread make a step again and again, and so the
execution of a job ends. -/
structure Fair (schedule : ℕ → ThreadPoolAction J) : Prop where
  scan : ∀ n, ∃ m, n ≤ m ∧ schedule m = .scan
  thread : ∀ index n, ∃ m, n ≤ m ∧ schedule m = .thread index

/-- Turns of the caller and of every thread, with nothing scheduled. -/
def turns (n : ℕ) : ThreadPoolAction J :=
  if n % 2 = 0 then .scan else .thread (Nat.unpair (n / 2)).1

theorem fair_turns : Fair (turns : ℕ → ThreadPoolAction J) where
  scan n := ⟨2 * n, by omega, if_pos (by omega)⟩
  thread index n := by
    have hle := Nat.right_le_pair index n
    have hhalf : (2 * Nat.pair index n + 1) / 2 = Nat.pair index n := by omega
    refine ⟨2 * Nat.pair index n + 1, by omega, ?_⟩
    rw [turns, if_neg (by omega), hhalf, Nat.unpair_pair]

/-- Items that have been pushed or popped stay so, in their order. -/
theorem prefix_of_moves {action : ThreadPoolAction J} (moves : c.Moves action c') :
    c.pushed <+: c'.pushed ∧ c.popped <+: c'.popped := by
  cases moves with
  | push job idle => exact ⟨List.prefix_append _ _, List.prefix_refl _⟩
  | pop index busy item rest found queue => exact ⟨List.prefix_refl _, List.prefix_append _ _⟩
  | pass | notify | create | giveUp | empty | free | reset | again | wait | wake |
    wakeSpuriously => exact ⟨List.prefix_refl _, List.prefix_refl _⟩

theorem prefix_step (c : ThreadContext J) (action : ThreadPoolAction J) :
    c.pushed <+: (c.step action).pushed ∧ c.popped <+: (c.step action).popped :=
  step_preserves (P := fun c' => c.pushed <+: c'.pushed ∧ c.popped <+: c'.popped) action
    ⟨List.prefix_refl _, List.prefix_refl _⟩ fun _ => prefix_of_moves

/-- A busy thread is changed by nobody but itself. -/
theorem getElem?_of_moves {action : ThreadPoolAction J} {index : ℕ} {t : Thread J}
    (moves : c.Moves action c') (other : action ≠ .thread index)
    (inTime : c.InTime action) (busy : t.busy = true)
    (found : c.threads[index]? = some t) : c'.threads[index]? = some t := by
  have hset {j : ℕ} (u : Thread J) (hne : j ≠ index) : (c.threads.set j u)[index]? = some t :=
    (List.getElem?_set_ne hne).trans found
  cases moves with
  | push | pass | giveUp => exact found
  | notify j thread scanning hfound free =>
    apply hset
    rintro rfl
    obtain rfl := Option.some.inj (hfound.symm.trans found)
    rw [free] at busy
    cases busy
  | create =>
    have hlt := (List.getElem?_eq_some_iff.mp found).1
    exact (List.getElem?_append_left hlt).trans found
  | pop j | empty j | free j | reset j | again j | wait j | wake j =>
    apply hset
    rintro rfl
    exact other rfl
  | wakeSpuriously j => exact inTime.elim

theorem getElem?_step {action : ThreadPoolAction J} {index : ℕ} {t : Thread J}
    (other : action ≠ .thread index) (inTime : c.InTime action)
    (busy : t.busy = true) (found : c.threads[index]? = some t) :
    (c.step action).threads[index]? = some t :=
  step_preserves (P := fun c' => c'.threads[index]? = some t) action found
    fun _ moves => getElem?_of_moves moves other inTime busy found

/-- An awake thread that is not about to pop comes to that in its next step. -/
theorem poolThreadFunc_of_awake {index : ℕ} {t : Thread J}
    (found : c.threads[index]? = some t) (consistent : t.Consistent) (awake : t.Awake)
    (other : t.stage ≠ .popping) :
    (c.poolThreadFunc index).threads[index]? = some ⟨true, .popping⟩ := by
  obtain ⟨busy, stage⟩ := t
  obtain ⟨rfl, hstage⟩ := awake
  have hself := List.getElem?_set_self (a := (⟨true, .popping⟩ : Thread J))
    (List.getElem?_eq_some_iff.mp found).1
  cases stage with
  | popping => exact absurd rfl other
  | emptied => exact absurd rfl hstage
  | executing item => simp only [poolThreadFunc, found, setThread, hself]
  | available => simp only [poolThreadFunc, found, if_true, setThread, hself]
  | waiting signalled =>
    obtain rfl : true = signalled := consistent
    simp only [poolThreadFunc, found, if_true, setThread, hself]

/-- A thread that pops takes the first item. -/
theorem popped_of_popping {index : ℕ} {busy : Bool}
    (found : c.threads[index]? = some ⟨busy, .popping⟩) (queue : c.jobQueue ≠ []) :
    c.popped.length < (c.poolThreadFunc index).popped.length := by
  obtain ⟨item, rest, hqueue⟩ := List.exists_cons_of_ne_nil queue
  simp [poolThreadFunc, found, popQueueItem, hqueue, setThread]

/-- Nobody is scheduling a job. -/
def SchedIdle (c : ThreadContext J) : Prop := c.schedStage = .idle

/-- What is left of a call of `sched_job`. -/
def scanRank (c : ThreadContext J) : ℕ :=
  match c.schedStage with
  | .idle => 0
  | .scanning index => c.threads.length - index + 1

/-- Nothing but `sched_job` gets on with a call of it. -/
theorem scanRank_step {action : ThreadPoolAction J} (other : action ≠ .scan)
    (scanning : c.schedStage ≠ .idle) :
    (c.step action).schedStage = c.schedStage ∧ (c.step action).scanRank = c.scanRank := by
  refine step_preserves (P := fun c' => c'.schedStage = c.schedStage ∧
    c'.scanRank = c.scanRank) action ⟨rfl, rfl⟩ fun c' moves => ?_
  cases moves with
  | push job idle => exact absurd idle scanning
  | pass | notify | create | giveUp => exact absurd rfl other
  | pop | empty | free | reset | again | wait | wake | wakeSpuriously =>
    exact ⟨rfl, by simp [scanRank, setThread]⟩

theorem scanRank_of_moves (moves : c.Moves .scan c') : c'.scanRank < c.scanRank := by
  cases moves with
  | pass index thread scanning found busy =>
    have hlt := (List.getElem?_eq_some_iff.mp found).1
    simp only [scanRank, scanning]
    omega
  | notify index thread scanning | create index scanning | giveUp index scanning =>
    simp only [scanRank, scanning]
    omega

/-! ### Along a fair run in which each job is scheduled in time -/

section FairRun

variable {schedule : ℕ → ThreadPoolAction J}

/-- The context before each step of a run. -/
abbrev contextAt (c : ThreadContext J) (schedule : ℕ → ThreadPoolAction J) :
    ℕ → ThreadContext J :=
  stateAt step c schedule

/-- A run from a context whose jobs are attended to, which schedules in time only. -/
structure InTimeRun (c : ThreadContext J) (schedule : ℕ → ThreadPoolAction J) : Prop where
  each : c.EachOnce
  attended : c.Attended
  inTime : ∀ n, (contextAt c schedule n).InTime (schedule n)

theorem InTimeRun.each_at (run : InTimeRun c schedule) (n : ℕ) :
    (contextAt c schedule n).EachOnce :=
  stateAt_invariant (P := fun _ _ => True) (fun c action each _ => eachOnce_step c action each)
    run.each (fun _ => trivial) n

theorem InTimeRun.attended_at (run : InTimeRun c schedule) (n : ℕ) :
    (contextAt c schedule n).Attended :=
  stateAt_invariant attended_step run.attended run.inTime n

variable (c schedule) in
theorem prefix_contextAt {n m : ℕ} (le : n ≤ m) :
    (contextAt c schedule n).pushed <+: (contextAt c schedule m).pushed ∧
      (contextAt c schedule n).popped <+: (contextAt c schedule m).popped := by
  induction le with
  | refl => exact ⟨List.prefix_refl _, List.prefix_refl _⟩
  | step _ ih =>
    obtain ⟨hpushed, hpopped⟩ := prefix_step (contextAt c schedule _) (schedule _)
    exact ⟨ih.1.trans hpushed, ih.2.trans hpopped⟩

/-- A busy thread stays as it is until its own next step. -/
theorem exists_own_step (run : InTimeRun c schedule) (fair : Fair schedule) {n index : ℕ}
    {t : Thread J} (busy : t.busy = true)
    (found : (contextAt c schedule n).threads[index]? = some t) :
    ∃ m, n ≤ m ∧ schedule m = .thread index ∧
      (contextAt c schedule m).threads[index]? = some t :=
  holds_until (A := fun action : ThreadPoolAction J => action = .thread index)
    (Q := fun c : ThreadContext J => c.threads[index]? = some t)
    (fun m _ hother hfound => getElem?_step hother (run.inTime m) busy hfound) found
    (fair.thread index n)

variable (c) in
/-- A call of `sched_job` comes to its end. -/
theorem exists_schedIdle (fair : Fair schedule) (n : ℕ) :
    ∃ m, n ≤ m ∧ (contextAt c schedule m).SchedIdle := by
  have hlowered (n : ℕ) (hbusy : ¬(contextAt c schedule n).SchedIdle) :
      ∃ m, n ≤ m ∧ (contextAt c schedule m).scanRank <
        (contextAt c schedule n).scanRank := by
    -- the call stands still until its own next step, in which it gets on
    obtain ⟨m, hle, hscan, hstage, hrank⟩ :=
      holds_until (A := fun action : ThreadPoolAction J => action = .scan)
        (Q := fun d : ThreadContext J =>
          d.schedStage = (contextAt c schedule n).schedStage ∧
            d.scanRank = (contextAt c schedule n).scanRank)
        (fun m _ hother hkept => by
          have hsame := scanRank_step hother fun h => hbusy (hkept.1.symm.trans h)
          exact ⟨hsame.1.trans hkept.1, hsame.2.trans hkept.2⟩)
        ⟨rfl, rfl⟩ (fair.scan n)
    refine ⟨m + 1, Nat.le_succ_of_le hle, ?_⟩
    rw [contextAt, stateAt_succ, hscan, ← hrank]
    cases hindex : (contextAt c schedule m).schedStage with
    | idle => exact absurd (hstage.symm.trans hindex) hbusy
    | scanning index => exact scanRank_of_moves (moves_scan_of_scanning hindex)
  exact eventually_of_rank hlowered n

/-- Somebody who will look at the queue comes to stand before it, or the queue has been
looked at before. -/
theorem exists_popping (run : InTimeRun c schedule) (fair : Fair schedule) {n : ℕ}
    (queue : ∀ m, n ≤ m → (contextAt c schedule m).jobQueue ≠ []) :
    ∃ m, ∃ index : ℕ, n ≤ m ∧
      (contextAt c schedule m).threads[index]? = some (⟨true, .popping⟩ : Thread J) := by
  obtain ⟨k, hk, hidle⟩ := exists_schedIdle c fair n
  have hattended := run.attended_at k
  rcases hattended.queue (queue k hk) with ⟨t, hmem, hawake⟩ | ⟨index, hscan, -⟩
  · obtain ⟨index, hfound⟩ := List.mem_iff_getElem?.mp hmem
    obtain ⟨m, hm, hown, hsame⟩ := exists_own_step run fair hawake.1 hfound
    by_cases hpopping : t.stage = .popping
    · obtain ⟨busy, stage⟩ := t
      obtain rfl : stage = .popping := hpopping
      obtain rfl : busy = true := hawake.1
      exact ⟨m, index, Nat.le_trans hk hm, hsame⟩
    · refine ⟨m + 1, index, Nat.le_trans hk (Nat.le_succ_of_le hm), ?_⟩
      rw [contextAt, stateAt_succ, hown]
      exact poolThreadFunc_of_awake hsame ((run.attended_at m).get hsame) hawake
        hpopping
  · rw [hidle] at hscan
    cases hscan

/-- As long as there are jobs in the queue, they are taken up. -/
theorem popped_grows (run : InTimeRun c schedule) (fair : Fair schedule) {n : ℕ}
    (queue : (contextAt c schedule n).jobQueue ≠ []) :
    ∃ m, n ≤ m ∧ (contextAt c schedule n).popped.length <
      (contextAt c schedule m).popped.length := by
  by_contra hnone
  have hstill (m : ℕ) (hm : n ≤ m) : (contextAt c schedule m).popped.length ≤
      (contextAt c schedule n).popped.length :=
    Nat.not_lt.mp fun hlt => hnone ⟨m, hm, hlt⟩
  -- the queue of a run that takes nothing up does not get shorter
  have hqueue (m : ℕ) (hm : n ≤ m) : (contextAt c schedule m).jobQueue ≠ [] := by
    have hpushed := (prefix_contextAt c schedule hm).1.length_le
    have hpos := List.length_pos_iff.mpr queue
    have hpopped := hstill m hm
    rw [(run.each_at n).order, (run.each_at m).order, List.length_append,
      List.length_append] at hpushed
    exact List.length_pos_iff.mp (by omega)
  obtain ⟨k, index, hk, hpopping⟩ := exists_popping run fair hqueue
  obtain ⟨m, hm, hown, hsame⟩ := exists_own_step run fair rfl hpopping
  have hgrows := popped_of_popping hsame (hqueue m (Nat.le_trans hk hm))
  have hlast := hstill (m + 1) (Nat.le_trans hk (Nat.le_succ_of_le hm))
  have hfirst := (prefix_contextAt c schedule (Nat.le_trans hk hm)).2.length_le
  rw [contextAt, stateAt_succ, hown] at hlast
  exact absurd (Nat.lt_of_le_of_lt hfirst hgrows) (Nat.not_lt.mpr hlast)

/-- The first items that have been pushed are popped sooner or later. -/
theorem exists_popped (run : InTimeRun c schedule) (fair : Fair schedule) {k n : ℕ}
    (pushed : k < (contextAt c schedule n).pushed.length) :
    ∃ m, n ≤ m ∧ k < (contextAt c schedule m).popped.length := by
  -- by induction on how many items are popped before that
  induction hd : k + 1 - (contextAt c schedule n).popped.length
    using Nat.strongRecOn generalizing n with
  | ind d ih =>
    by_cases hdone : k < (contextAt c schedule n).popped.length
    · exact ⟨n, Nat.le_refl n, hdone⟩
    have hqueue : (contextAt c schedule n).jobQueue ≠ [] := by
      rw [(run.each_at n).order, List.length_append] at pushed
      exact List.length_pos_iff.mp (by omega)
    obtain ⟨i, hi, hless⟩ := popped_grows run fair hqueue
    have hstays := (prefix_contextAt c schedule hi).1.length_le
    obtain ⟨m, hm, hpopped⟩ := ih _ (by omega) (Nat.lt_of_lt_of_le pushed hstays) rfl
    exact ⟨m, Nat.le_trans hi hm, hpopped⟩

/-- An item that has been popped is executed and freed. -/
theorem exists_freed (run : InTimeRun c schedule) (fair : Fair schedule) {n : ℕ}
    {item : QueueItem J} (popped : item ∈ (contextAt c schedule n).popped) :
    ∃ m, n ≤ m ∧ item ∈ (contextAt c schedule m).freed := by
  have hmem := (run.each_at n).once.mem_iff.mp popped
  rcases List.mem_append.mp hmem with hfreed | hexecuting
  · exact ⟨n, Nat.le_refl n, hfreed⟩
  obtain ⟨t, ht, hitem⟩ := List.mem_filterMap.mp hexecuting
  obtain ⟨index, hfound⟩ := List.mem_iff_getElem?.mp ht
  have hconsistent := (run.attended_at n).get hfound
  obtain ⟨busy, stage⟩ := t
  cases stage with
  | executing running =>
    obtain rfl : running = item := Option.some.inj hitem
    obtain ⟨m, hm, hown, hsame⟩ := exists_own_step run fair hconsistent hfound
    refine ⟨m + 1, Nat.le_succ_of_le hm, ?_⟩
    rw [contextAt, stateAt_succ, hown]
    show running ∈ ThreadContext.freed (poolThreadFunc _ index)
    simp only [poolThreadFunc, hsame]
    exact List.mem_append_right _ (List.mem_singleton_self _)
  | popping | emptied | available | waiting => cases hitem

/-- An item that has been pushed is popped, executed and freed. -/
theorem exists_freed_of_pushed (run : InTimeRun c schedule) (fair : Fair schedule) {n : ℕ}
    {item : QueueItem J} (pushed : item ∈ (contextAt c schedule n).pushed) :
    ∃ m, n ≤ m ∧ item ∈ (contextAt c schedule m).freed := by
  obtain ⟨k, hk⟩ := List.mem_iff_getElem?.mp pushed
  have hlength := (List.getElem?_eq_some_iff.mp hk).1
  obtain ⟨i, hi, hpopped⟩ := exists_popped run fair hlength
  have hitem : item ∈ (contextAt c schedule i).popped := by
    have hlater := (List.prefix_iff_getElem?.mp (prefix_contextAt c schedule hi).1) k hlength
    rw [(run.each_at i).order, List.getElem?_append_left hpopped,
      (List.getElem?_eq_some_iff.mp hk).2] at hlater
    exact List.mem_of_getElem? hlater
  obtain ⟨m, hm, hfreed⟩ := exists_freed run fair hitem
  exact ⟨m, Nat.le_trans hi hm, hfreed⟩

end FairRun

/-- **Every job is executed.** In a run that is fair and in which each job is scheduled in
time, every item that has been pushed is taken up, executed and freed. -/
theorem jobs_eventually_freed (maxThreads : UInt32) (schedule : ℕ → ThreadPoolAction J)
    (fair : Fair schedule)
    (inTime : ∀ n, (contextAt (initThreadPool maxThreads) schedule n).InTime (schedule n))
    (n : ℕ) (item : QueueItem J)
    (pushed : item ∈ (contextAt (initThreadPool maxThreads) schedule n).pushed) :
    ∃ m, n ≤ m ∧ item ∈ (contextAt (initThreadPool maxThreads) schedule m).freed :=
  exists_freed_of_pushed
    ⟨eachOnce_initThreadPool maxThreads, attended_initThreadPool maxThreads, inTime⟩ fair pushed

/-- A job, and then turns of the caller and of every thread. -/
def jobAndTurns : ℕ → ThreadPoolAction ℕ
  | 0 => .sched 7
  | n + 1 => turns n

theorem fair_jobAndTurns : Fair jobAndTurns where
  scan n := by
    obtain ⟨m, hm, hscan⟩ := fair_turns.scan n
    exact ⟨m + 1, Nat.le_succ_of_le hm, hscan⟩
  thread index n := by
    obtain ⟨m, hm, hthread⟩ := fair_turns.thread index n
    exact ⟨m + 1, Nat.le_succ_of_le hm, hthread⟩

/-- The job is executed by a thread that is created for it. -/
theorem jobs_eventually_freed_jobAndTurns :
    ∃ m, 1 ≤ m ∧ ⟨0, 7⟩ ∈ (contextAt (initThreadPool 0) jobAndTurns m).freed := by
  apply jobs_eventually_freed 0 jobAndTurns fair_jobAndTurns
  · intro n
    cases n with
    | zero => exact fun _ => .inl (.inr rfl)
    | succ n =>
      rw [jobAndTurns, turns]
      split <;> trivial
  · exact List.mem_singleton_self _

end ThreadContext

end PiVision
