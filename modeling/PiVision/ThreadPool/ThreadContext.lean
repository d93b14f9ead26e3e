import PiVision.Lib.Run
import Mathlib.Data.Int.Notation

/-!
# The thread pool

`sched_job` puts a job at the end of a queue and then looks for a thread that has marked
itself as available, or creates one. A thread executes jobs until it finds the queue
empty; only behind that does it mark itself as available, in a critical section of its
own, and then it waits to be notified.

The caller of `sched_job` and the threads are interleaved at will. The steps are the
critical sections of `jobQueueMutex` and of the `execMutex` of a thread; `contextMutex`
admits one call of `sched_job` at a time. Nothing calls `destroy_thread_pool`, so that
`active` is set in every thread and no thread leaves its loop.
-/

namespace PiVision

/-- `struct QueueItem`. The number stands for its address: how many items have been
allocated before it. -/
structure QueueItem (J : Type*) where
  number : ℕ
  job : J
  deriving DecidableEq, Repr

/-- Where a thread stands in `pool_thread_func`. -/
inductive ThreadStage (J : Type*)
  /-- before a call of `pop_queue_item` -/
  | popping
  /-- inside the `thread_func` of the item -/
  | executing (item : QueueItem J)
  /-- behind a pop that has found the queue empty -/
  | emptied
  /-- `busy` has been reset, and not been looked at again -/
  | available
  /-- inside `pthread_cond_wait` -/
  | waiting (signalled : Bool)
  deriving DecidableEq, Repr

/-- `struct Thread`. -/
structure Thread (J : Type*) where
  busy : Bool
  stage : ThreadStage J
  deriving DecidableEq, Repr

/-- Where the call of `sched_job` stands that holds `contextMutex`. -/
inductive SchedStage
  | idle
  /-- the job has been pushed, and the thread of this index is the next one to look at -/
  | scanning (index : ℕ)
  deriving DecidableEq, Repr

/-- `struct ThreadContext`, with the items that have been pushed, popped and freed so far.
`numThreads` is the length of `threads`. -/
structure ThreadContext (J : Type*) where
  threads : List (Thread J)
  maxThreads : ℤ
  jobQueue : List (QueueItem J)
  schedStage : SchedStage
  pushed : List (QueueItem J)
  popped : List (QueueItem J)
  freed : List (QueueItem J)

/-- A step: a call of `sched_job` up to its push, its look at the next thread, a step of a
thread, or a wake-up of a thread that nothing has notified. -/
inductive ThreadPoolAction (J : Type*)
  | sched (job : J)
  | scan
  | thread (index : ℕ)
  | spurious (index : ℕ)
  deriving DecidableEq, Repr

variable {J : Type*}

namespace Thread

/-- A new thread, as `create_thread` starts it. -/
def create : Thread J := ⟨true, .popping⟩

/-- `sched_job` takes the thread: a signal reaches it only if it is waiting. -/
def notify (t : Thread J) : Thread J where
  busy := true
  stage := match t.stage with
    | .waiting _ => .waiting true
    | stage => stage

/-- The item that the thread is executing. -/
def item (t : Thread J) : Option (QueueItem J) :=
  match t.stage with
  | .executing item => some item
  | _ => none

/-- The thread will look at the queue before it is available. -/
def Awake (t : Thread J) : Prop := t.busy = true ∧ t.stage ≠ .emptied

/-- What a thread says of itself while no wake-up is spurious. -/
def Consistent (t : Thread J) : Prop :=
  match t.stage with
  | .popping | .executing _ | .emptied => t.busy = true
  | .available => True
  | .waiting signalled => t.busy = signalled

instance (t : Thread J) : Decidable t.Consistent :=
  match t with
  | ⟨_, .popping⟩ | ⟨_, .executing _⟩ | ⟨_, .emptied⟩ | ⟨_, .waiting _⟩ =>
    inferInstanceAs (Decidable (_ = _))
  | ⟨_, .available⟩ => .isTrue trivial

end Thread

namespace ThreadContext

/-- `init_thread_pool`. `maxThreads` is stored as an `int`. -/
def initThreadPool (maxThreads : UInt32) : ThreadContext J where
  threads := []
  maxThreads := maxThreads.toInt32.toInt
  jobQueue := []
  schedStage := .idle
  pushed := []
  popped := []
  freed := []

/-- `push_queue_item`. -/
def pushQueueItem (c : ThreadContext J) (item : QueueItem J) : ThreadContext J :=
  { c with jobQueue := c.jobQueue ++ [item], pushed := c.pushed ++ [item] }

/-- `pop_queue_item`. -/
def popQueueItem (c : ThreadContext J) : Option (QueueItem J) × ThreadContext J :=
  match c.jobQueue with
  | [] => (none, c)
  | item :: rest => (some item, { c with jobQueue := rest, popped := c.popped ++ [item] })

/-- `create_thread`. -/
def createThread (c : ThreadContext J) : ThreadContext J :=
  { c with threads := c.threads ++ [.create] }

/-- There is room for another thread. -/
def HasRoom (c : ThreadContext J) : Prop :=
  (c.threads.length : ℤ) < c.maxThreads ∨ c.maxThreads = 0

instance (c : ThreadContext J) : Decidable c.HasRoom := inferInstanceAs (Decidable (_ ∨ _))

/-- `sched_job`, up to its push. -/
def schedJob (c : ThreadContext J) (job : J) : ThreadContext J :=
  match c.schedStage with
  | .idle => { c.pushQueueItem ⟨c.pushed.length, job⟩ with schedStage := .scanning 0 }
  -- the caller waits for `contextMutex`
  | .scanning _ => c

/-- `sched_job`: a round of its loop, or what is behind the loop. -/
def scan (c : ThreadContext J) : ThreadContext J :=
  match c.schedStage with
  | .idle => c
  | .scanning index =>
    match c.threads[index]? with
    | some thread =>
      if thread.busy then { c with schedStage := .scanning (index + 1) }
      else { c with threads := c.threads.set index thread.notify, schedStage := .idle }
    | none =>
      if c.HasRoom then { c.createThread with schedStage := .idle }
      else { c with schedStage := .idle }

/-- The context with another thread in the place of the given one. -/
def setThread (c : ThreadContext J) (index : ℕ) (thread : Thread J) : ThreadContext J :=
  { c with threads := c.threads.set index thread }

/-- `pool_thread_func`: a step of the given thread. -/
def poolThreadFunc (c : ThreadContext J) (index : ℕ) : ThreadContext J :=
  match c.threads[index]? with
  | none => c
  | some thread =>
    match thread.stage with
    | .popping =>
      match c.popQueueItem with
      | (some item, c) => c.setThread index { thread with stage := .executing item }
      | (none, c) => c.setThread index { thread with stage := .emptied }
    -- `thread_func` returns, and the item is freed
    | .executing item =>
      { c.setThread index { thread with stage := .popping } with freed := c.freed ++ [item] }
    | .emptied => c.setThread index ⟨false, .available⟩
    | .available =>
      if thread.busy then c.setThread index { thread with stage := .popping }
      else c.setThread index { thread with stage := .waiting false }
    | .waiting signalled =>
      if signalled then c.setThread index { thread with stage := .popping } else c

/-- `pthread_cond_wait` returns although nothing has been signalled. -/
def wakeSpuriously (c : ThreadContext J) (index : ℕ) : ThreadContext J :=
  match c.threads[index]? with
  | some ⟨busy, .waiting _⟩ => c.setThread index ⟨busy, .popping⟩
  | _ => c

/-- A step of the caller of `sched_job` or of a thread. -/
def step (c : ThreadContext J) : ThreadPoolAction J → ThreadContext J
  | .sched job => c.schedJob job
  | .scan => c.scan
  | .thread index => c.poolThreadFunc index
  | .spurious index => c.wakeSpuriously index

/-- The items that are being executed. -/
def executing (c : ThreadContext J) : List (QueueItem J) := c.threads.filterMap Thread.item

/-! ## What a step can do -/

/-- The steps that change something, each with the state it is possible in. -/
inductive Moves (c : ThreadContext J) : ThreadPoolAction J → ThreadContext J → Prop
  | push (job : J) (idle : c.schedStage = .idle) :
    Moves c (.sched job)
      { c.pushQueueItem ⟨c.pushed.length, job⟩ with schedStage := .scanning 0 }
  | pass (index : ℕ) (thread : Thread J) (scanning : c.schedStage = .scanning index)
    (found : c.threads[index]? = some thread) (busy : thread.busy = true) :
    Moves c .scan { c with schedStage := .scanning (index + 1) }
  | notify (index : ℕ) (thread : Thread J) (scanning : c.schedStage = .scanning index)
    (found : c.threads[index]? = some thread) (free : thread.busy = false) :
    Moves c .scan { c.setThread index thread.notify with schedStage := .idle }
  | create (index : ℕ) (scanning : c.schedStage = .scanning index)
    (last : c.threads.length ≤ index) (room : c.HasRoom) :
    Moves c .scan { c.createThread with schedStage := .idle }
  | giveUp (index : ℕ) (scanning : c.schedStage = .scanning index)
    (last : c.threads.length ≤ index) (full : ¬c.HasRoom) :
    Moves c .scan { c with schedStage := .idle }
  | pop (index : ℕ) (busy : Bool) (item : QueueItem J) (rest : List (QueueItem J))
    (found : c.threads[index]? = some ⟨busy, .popping⟩) (queue : c.jobQueue = item :: rest) :
    Moves c (.thread index)
      { c.setThread index ⟨busy, .executing item⟩ with
        jobQueue := rest, popped := c.popped ++ [item] }
  | empty (index : ℕ) (busy : Bool) (found : c.threads[index]? = some ⟨busy, .popping⟩)
    (queue : c.jobQueue = []) : Moves c (.thread index) (c.setThread index ⟨busy, .emptied⟩)
  | free (index : ℕ) (busy : Bool) (item : QueueItem J)
    (found : c.threads[index]? = some ⟨busy, .executing item⟩) :
    Moves c (.thread index)
      { c.setThread index ⟨busy, .popping⟩ with freed := c.freed ++ [item] }
  | reset (index : ℕ) (busy : Bool) (found : c.threads[index]? = some ⟨busy, .emptied⟩) :
    Moves c (.thread index) (c.setThread index ⟨false, .available⟩)
  | again (index : ℕ) (found : c.threads[index]? = some ⟨true, .available⟩) :
    Moves c (.thread index) (c.setThread index ⟨true, .popping⟩)
  | wait (index : ℕ) (found : c.threads[index]? = some ⟨false, .available⟩) :
    Moves c (.thread index) (c.setThread index ⟨false, .waiting false⟩)
  | wake (index : ℕ) (busy : Bool) (found : c.threads[index]? = some ⟨busy, .waiting true⟩) :
    Moves c (.thread index) (c.setThread index ⟨busy, .popping⟩)
  | wakeSpuriously (index : ℕ) (busy signalled : Bool)
    (found : c.threads[index]? = some ⟨busy, .waiting signalled⟩) :
    Moves c (.spurious index) (c.setThread index ⟨busy, .popping⟩)

theorem moves_schedJob (c : ThreadContext J) (job : J) :
    c.schedJob job = c ∨ c.Moves (.sched job) (c.schedJob job) := by
  rw [schedJob]
  cases hstage : c.schedStage with
  | idle => exact .inr (.push job hstage)
  | scanning index => exact .inl rfl

/-- A call that is under way gets on. -/
theorem moves_scan_of_scanning {c : ThreadContext J} {index : ℕ}
    (scanning : c.schedStage = .scanning index) : c.Moves .scan c.scan := by
  simp only [scan, scanning]
  cases hfound : c.threads[index]? with
  | some thread =>
    cases hbusy : thread.busy with
    | true =>
      simp only [hbusy, if_true]
      exact .pass index thread scanning hfound hbusy
    | false =>
      simp only [hbusy, Bool.false_eq_true, if_false]
      exact .notify index thread scanning hfound hbusy
  | none =>
    have hlast := List.getElem?_eq_none_iff.mp hfound
    by_cases hroom : c.HasRoom
    · simp only [if_pos hroom]
      exact .create index scanning hlast hroom
    · simp only [if_neg hroom]
      exact .giveUp index scanning hlast hroom

theorem moves_scan (c : ThreadContext J) : c.scan = c ∨ c.Moves .scan c.scan := by
  cases hstage : c.schedStage with
  | idle => exact .inl (by rw [scan, hstage])
  | scanning index => exact .inr (moves_scan_of_scanning hstage)

theorem moves_poolThreadFunc (c : ThreadContext J) (index : ℕ) :
    c.poolThreadFunc index = c ∨ c.Moves (.thread index) (c.poolThreadFunc index) := by
  rw [poolThreadFunc]
  cases hfound : c.threads[index]? with
  | none => exact .inl rfl
  | some thread =>
    obtain ⟨busy, stage⟩ := thread
    cases stage with
    | popping =>
      cases hqueue : c.jobQueue with
      | nil =>
        simp only [popQueueItem, hqueue]
        exact .inr (.empty index busy hfound hqueue)
      | cons item rest =>
        simp only [popQueueItem, hqueue]
        exact .inr (.pop index busy item rest hfound hqueue)
    | executing item => exact .inr (.free index busy item hfound)
    | emptied => exact .inr (.reset index busy hfound)
    | available =>
      cases busy with
      | true => exact .inr (.again index hfound)
      | false => exact .inr (.wait index hfound)
    | waiting signalled =>
      cases signalled with
      | true => exact .inr (.wake index busy hfound)
      | false => exact .inl rfl

theorem moves_wakeSpuriously (c : ThreadContext J) (index : ℕ) :
    c.wakeSpuriously index = c ∨ c.Moves (.spurious index) (c.wakeSpuriously index) := by
  rw [wakeSpuriously]
  split
  · rename_i busy signalled hfound
    exact .inr (.wakeSpuriously index busy signalled hfound)
  · exact .inl rfl

/-- A step changes nothing, or is one of the moves. -/
theorem moves_step (c : ThreadContext J) (action : ThreadPoolAction J) :
    c.step action = c ∨ c.Moves action (c.step action) := by
  cases action with
  | sched job => exact c.moves_schedJob job
  | scan => exact c.moves_scan
  | thread index => exact c.moves_poolThreadFunc index
  | spurious index => exact c.moves_wakeSpuriously index

/-- What each move keeps is kept by each step. -/
theorem step_preserves {P : ThreadContext J → Prop} {c : ThreadContext J}
    (action : ThreadPoolAction J) (holds : P c) (moves : ∀ c', c.Moves action c' → P c') :
    P (c.step action) := by
  rcases c.moves_step action with h | h
  · rw [h]
    exact holds
  · exact moves _ h

theorem schedJob_of_idle {c : ThreadContext J} (idle : c.schedStage = .idle) (job : J) :
    c.schedJob job =
      { c.pushQueueItem ⟨c.pushed.length, job⟩ with schedStage := .scanning 0 } := by
  rw [schedJob, idle]

/-- Nothing but a call of `sched_job` pushes an item, and then the queue is the rest of what
it was. -/
theorem pushed_of_moves {c c' : ThreadContext J} {action : ThreadPoolAction J}
    (other : ∀ job, action ≠ .sched job) (moves : c.Moves action c') :
    c'.pushed = c.pushed ∧ c'.jobQueue ⊆ c.jobQueue := by
  cases moves with
  | push job idle => exact absurd rfl (other job)
  | pop index busy item rest found queue =>
    refine ⟨rfl, ?_⟩
    rw [queue]
    exact List.subset_cons_self _ _
  | pass | notify | create | giveUp | empty | free | reset | again | wait | wake |
    wakeSpuriously => exact ⟨rfl, List.Subset.refl _⟩

theorem pushed_step {c : ThreadContext J} {action : ThreadPoolAction J}
    (other : ∀ job, action ≠ .sched job) :
    (c.step action).pushed = c.pushed ∧ (c.step action).jobQueue ⊆ c.jobQueue :=
  step_preserves (P := fun c' => c'.pushed = c.pushed ∧ c'.jobQueue ⊆ c.jobQueue) action
    ⟨rfl, List.Subset.refl _⟩ fun _ => pushed_of_moves other

/-- An item is freed by the thread that has executed it. -/
theorem freed_step {c : ThreadContext J} {action : ThreadPoolAction J} {item : QueueItem J}
    (freed : item ∈ (c.step action).freed) :
    item ∈ c.freed ∨ ∃ index busy, action = .thread index ∧
      c.threads[index]? = some ⟨busy, .executing item⟩ := by
  rcases c.moves_step action with h | moves
  · rw [h] at freed
    exact .inl freed
  generalize c.step action = c' at freed moves
  cases moves with
  | free index busy other found =>
    rcases List.mem_append.mp freed with hold | hnew
    · exact .inl hold
    · rw [List.mem_singleton.mp hnew]
      exact .inr ⟨index, busy, rfl, found⟩
  | push | pass | notify | create | giveUp | pop | empty | reset | again | wait | wake |
    wakeSpuriously => exact .inl freed

/-! ## The threads behind a step -/

/-- A place of a list, with the list that has another entry in it. -/
theorem exists_split {α : Type*} {l : List α} {i : ℕ} {x : α} (found : l[i]? = some x) :
    ∃ pre post, l = pre ++ x :: post ∧ ∀ y, l.set i y = pre ++ y :: post := by
  obtain ⟨hi, rfl⟩ := List.getElem?_eq_some_iff.mp found
  refine ⟨l.take i, l.drop (i + 1), ?_, fun y => List.set_eq_take_append_cons_drop.trans ?_⟩
  · rw [List.getElem_cons_drop, List.take_append_drop]
  · rw [if_pos hi]

end ThreadContext

end PiVision
