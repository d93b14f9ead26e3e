import PiVision.ThreadPool.ThreadContext
import Mathlib.Data.List.Nodup

/-!
# Each job is executed once

Whatever the interleaving, spurious wake-ups included: the items are popped in the order
of the calls of `sched_job`, each of them by one thread, which executes it and frees it
behind that. A thread touches an item before it is freed only.
-/

namespace PiVision

namespace ThreadContext

variable {J : Type*} {c c' : ThreadContext J}

/-- Where the items are that have been pushed. -/
structure EachOnce (c : ThreadContext J) : Prop where
  order : c.pushed = c.popped ++ c.jobQueue
  once : c.popped.Perm (c.freed ++ c.executing)
  numbers : c.pushed.map QueueItem.number = List.range c.pushed.length

theorem mem_executing {index : ℕ} {busy : Bool} {item : QueueItem J}
    (found : c.threads[index]? = some ⟨busy, .executing item⟩) : item ∈ c.executing :=
  List.mem_filterMap.mpr ⟨_, List.mem_of_getElem? found, rfl⟩

/-- There are at most as many threads as have been asked for. -/
structure Bounded (maxThreads : ℤ) (c : ThreadContext J) : Prop where
  max : c.maxThreads = maxThreads
  length : 0 < maxThreads → (c.threads.length : ℤ) ≤ maxThreads

/-- Another thread in the place of one changes the items in execution by theirs. -/
theorem executing_setThread {index : ℕ} {thread : Thread J}
    (found : c.threads[index]? = some thread) :
    ∃ others, c.executing.Perm (thread.item.toList ++ others) ∧
      ∀ t, (c.setThread index t).executing.Perm (t.item.toList ++ others) := by
  obtain ⟨pre, post, hthreads, hset⟩ := exists_split found
  have hperm (t : Thread J) : ((pre ++ t :: post).filterMap Thread.item).Perm
      (t.item.toList ++ (pre.filterMap Thread.item ++ post.filterMap Thread.item)) := by
    rw [List.filterMap_append]
    cases hitem : t.item with
    | none => simp [hitem]
    | some item => simp [hitem, List.perm_middle]
  refine ⟨pre.filterMap Thread.item ++ post.filterMap Thread.item, ?_, fun t => ?_⟩
  · rw [executing, hthreads]
    exact hperm thread
  · rw [executing, setThread, hset]
    exact hperm t

/-- A thread that executes the same item as the one before it. -/
theorem executing_setThread_same {index : ℕ} {thread t : Thread J}
    (found : c.threads[index]? = some thread) (same : t.item = thread.item) :
    (c.setThread index t).executing.Perm c.executing := by
  obtain ⟨others, hbefore, hafter⟩ := executing_setThread found
  have hnext := hafter t
  rw [same] at hnext
  exact hnext.trans hbefore.symm

theorem item_notify (t : Thread J) : t.notify.item = t.item := by
  obtain ⟨busy, stage⟩ := t
  cases stage <;> rfl

theorem executing_createThread (c : ThreadContext J) :
    c.createThread.executing = c.executing := by
  simp [executing, createThread, Thread.create, Thread.item]

/-- A step that leaves the items where they are. -/
theorem EachOnce.of_same (each : c.EachOnce) (pushed : c'.pushed = c.pushed)
    (popped : c'.popped = c.popped) (queue : c'.jobQueue = c.jobQueue)
    (freed : c'.freed = c.freed) (executing : c'.executing.Perm c.executing) : c'.EachOnce where
  order := by rw [pushed, popped, queue, each.order]
  once := by
    rw [popped, freed]
    exact each.once.trans (executing.symm.append_left _)
  numbers := by rw [pushed, each.numbers]

theorem EachOnce.of_moves {action : ThreadPoolAction J} (each : c.EachOnce)
    (moves : c.Moves action c') : c'.EachOnce := by
  cases moves with
  | push job idle =>
    refine ⟨?_, each.once, ?_⟩
    · show c.pushed ++ [_] = c.popped ++ (c.jobQueue ++ [_])
      rw [each.order, List.append_assoc]
    · show (c.pushed ++ [_]).map QueueItem.number = List.range (c.pushed ++ [_]).length
      rw [List.map_append, each.numbers, List.length_append, List.length_singleton,
        List.range_succ]
      rfl
  | pass index thread scanning found busy =>
    exact each.of_same rfl rfl rfl rfl (.refl _)
  | notify index thread scanning found free =>
    exact each.of_same rfl rfl rfl rfl (executing_setThread_same found (item_notify thread))
  | create index scanning last room =>
    exact each.of_same rfl rfl rfl rfl (.of_eq c.executing_createThread)
  | giveUp index scanning last full => exact each.of_same rfl rfl rfl rfl (.refl _)
  | pop index busy item rest found queue =>
    obtain ⟨others, hbefore, hafter⟩ := executing_setThread found
    refine ⟨?_, ?_, each.numbers⟩
    · show c.pushed = (c.popped ++ [item]) ++ rest
      rw [each.order, queue, List.append_assoc, List.singleton_append]
    · show (c.popped ++ [item]).Perm (c.freed ++ (c.setThread index _).executing)
      calc (c.popped ++ [item]).Perm ((c.freed ++ others) ++ [item]) :=
            (each.once.trans (hbefore.append_left _)).append_right _
        _ |>.Perm (c.freed ++ ([item] ++ others)) := by
            rw [List.append_assoc]
            exact List.perm_append_comm.append_left _
        _ |>.Perm (c.freed ++ (c.setThread index _).executing) :=
            (hafter ⟨busy, .executing item⟩).symm.append_left _
  | empty index busy found queue =>
    exact each.of_same rfl rfl rfl rfl (executing_setThread_same found rfl)
  | free index busy item found =>
    obtain ⟨others, hbefore, hafter⟩ := executing_setThread found
    refine ⟨each.order, ?_, each.numbers⟩
    show c.popped.Perm (c.freed ++ [item] ++ (c.setThread index _).executing)
    rw [List.append_assoc]
    exact each.once.trans
      ((hbefore.trans ((hafter ⟨busy, .popping⟩).symm.cons item)).append_left _)
  | reset index busy found =>
    exact each.of_same rfl rfl rfl rfl (executing_setThread_same found rfl)
  | again index found => exact each.of_same rfl rfl rfl rfl (executing_setThread_same found rfl)
  | wait index found => exact each.of_same rfl rfl rfl rfl (executing_setThread_same found rfl)
  | wake index busy found => exact each.of_same rfl rfl rfl rfl (executing_setThread_same found rfl)
  | wakeSpuriously index busy signalled found =>
    exact each.of_same rfl rfl rfl rfl (executing_setThread_same found rfl)

theorem eachOnce_step (c : ThreadContext J) (action : ThreadPoolAction J) (each : c.EachOnce) :
    (c.step action).EachOnce :=
  step_preserves action each fun _ => each.of_moves

theorem eachOnce_initThreadPool (maxThreads : UInt32) :
    (initThreadPool maxThreads : ThreadContext J).EachOnce := ⟨rfl, .refl _, rfl⟩

/-- Items are told apart by their numbers. -/
theorem EachOnce.number_inj (each : c.EachOnce) {item other : QueueItem J}
    (mem : item ∈ c.pushed) (mem' : other ∈ c.pushed) (same : item.number = other.number) :
    item = other := by
  refine List.inj_on_of_nodup_map ?_ mem mem' same
  rw [each.numbers]
  exact List.nodup_range

theorem EachOnce.number_lt (each : c.EachOnce) {item : QueueItem J} (mem : item ∈ c.pushed) :
    item.number < c.pushed.length := by
  have hmem := List.mem_map_of_mem (f := QueueItem.number) mem
  rw [each.numbers] at hmem
  exact List.mem_range.mp hmem

theorem EachOnce.mem_pushed_of_executing (each : c.EachOnce) {item : QueueItem J}
    (mem : item ∈ c.executing) : item ∈ c.pushed := by
  rw [each.order]
  exact List.mem_append_left _ (each.once.mem_iff.mpr (List.mem_append_right _ mem))

theorem EachOnce.mem_pushed_of_queue (each : c.EachOnce) {item : QueueItem J}
    (mem : item ∈ c.jobQueue) : item ∈ c.pushed := by
  rw [each.order]
  exact List.mem_append_right _ mem

/-- No item is in two of the places, or twice in one. -/
theorem EachOnce.nodup (each : c.EachOnce) : (c.freed ++ c.executing ++ c.jobQueue).Nodup := by
  have hpushed : c.pushed.Nodup := by
    apply List.Nodup.of_map QueueItem.number
    rw [each.numbers]
    exact List.nodup_range
  rw [each.order] at hpushed
  exact (each.once.append_right c.jobQueue).nodup_iff.mp hpushed

/-- The threads have changed in nothing but their stages. -/
theorem Bounded.of_same {maxThreads : ℤ} (bounded : c.Bounded maxThreads)
    (max : c'.maxThreads = c.maxThreads) (length : c'.threads.length = c.threads.length) :
    c'.Bounded maxThreads where
  max := max.trans bounded.max
  length hpos := by
    rw [length]
    exact bounded.length hpos

theorem Bounded.of_moves {maxThreads : ℤ} {action : ThreadPoolAction J}
    (bounded : c.Bounded maxThreads) (moves : c.Moves action c') : c'.Bounded maxThreads := by
  cases moves with
  | create index scanning last room =>
    refine ⟨bounded.max, fun hpos => ?_⟩
    have hlength : ((c.threads ++ [Thread.create]).length : ℤ) = c.threads.length + 1 := by simp
    have hmax := bounded.max
    show ((c.threads ++ [Thread.create]).length : ℤ) ≤ maxThreads
    rcases room with hroom | hroom <;> omega
  | push | pass | giveUp => exact bounded.of_same rfl rfl
  | notify | pop | empty | free | reset | again | wait | wake | wakeSpuriously =>
    exact bounded.of_same rfl List.length_set

theorem bounded_initThreadPool (maxThreads : UInt32) :
    (initThreadPool maxThreads : ThreadContext J).Bounded maxThreads.toInt32.toInt :=
  ⟨rfl, fun hpos => Int.le_of_lt hpos⟩

theorem bounded_step {maxThreads : ℤ} (c : ThreadContext J) (action : ThreadPoolAction J)
    (bounded : c.Bounded maxThreads) : (c.step action).Bounded maxThreads :=
  step_preserves action bounded fun _ => bounded.of_moves

theorem length_executing_le (c : ThreadContext J) : c.executing.length ≤ c.threads.length :=
  List.length_filterMap_le _ _

/-- **Jobs are executed once**, in every interleaving of calls of `sched_job` with the
threads: they are taken up in the order of the calls, each by one thread, freed behind its
execution only and touched by nobody from then on. No more of them are executed at a time
than threads have been asked for. -/
theorem jobs_executed_once (maxThreads : UInt32) (actions : List (ThreadPoolAction J)) :
    let c := Machine.run step (initThreadPool maxThreads) actions
    c.pushed = c.popped ++ c.jobQueue ∧ c.popped.Perm (c.freed ++ c.executing) ∧
      (c.freed ++ c.executing ++ c.jobQueue).Nodup ∧
      (0 < maxThreads.toInt32.toInt → (c.executing.length : ℤ) ≤ maxThreads.toInt32.toInt) := by
  intro c
  have heach : c.EachOnce :=
    Machine.run_invariant step eachOnce_step (eachOnce_initThreadPool maxThreads) actions
  have hbounded : c.Bounded maxThreads.toInt32.toInt :=
    Machine.run_invariant step bounded_step (bounded_initThreadPool maxThreads) actions
  refine ⟨heach.order, heach.once, heach.nodup, fun hpos => ?_⟩
  have hexecuting : (c.executing.length : ℤ) ≤ c.threads.length :=
    Int.ofNat_le.mpr c.length_executing_le
  exact Int.le_trans hexecuting (hbounded.length hpos)

end ThreadContext

end PiVision
