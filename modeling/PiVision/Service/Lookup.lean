import Mathlib.Tactic.IntervalCases
import PiVision.Lib.Run
import PiVision.Service.Terminal

/-!
# The lookup of a service, step by step

`PiVisionEthTermConnectService` runs `Execute` on a thread of its own while the dispatcher
calls its `HandleEvent`. An attempt that no server answers raises a timeout, locks
`timeoutMutex` and waits to be notified, and the handler of a timeout locks the same mutex
and notifies. A notification that finds no one waiting is lost, and the wait has no
predicate.

A step is one of `Execute` up to the next point where the handler may come in between, or
the delivery of a timeout. Timeouts of every lookup are delivered to every lookup.
-/

namespace PiVision

open Machine EthTermConnectService

/-- Where `Execute` stands: at the test of its loop, before it raises the timeout, before it
locks `timeoutMutex`, with the mutex held and the wait to come, in the wait with the mutex
released, notified, or at its end. -/
inductive LookupPoint
  | loop
  | raise
  | lock
  | wait
  | waiting
  | notified
  | finished
  deriving DecidableEq, Repr

/-- The job. `timeouts` are the timeouts in flight, by their service. The answers to the
requests, the results of `ConnectToServer` and the events raised are kept in order. -/
structure Lookup where
  serviceNo : ℕ
  numAttempts : ℕ
  serviceFound : Bool
  socketFd : Int32
  point : LookupPoint
  timeouts : List ℕ
  answers : List Bool
  connects : List Int32
  raised : List ServiceEvent

/-- What can happen: `Execute` goes on, for what a server and the connect answer if it asks
them, the timeout number `i` in flight is delivered, or another lookup raises a timeout. -/
inductive LookupAction
  | execute (answered : Bool) (connectToServer : Int32)
  | deliver (i : ℕ)
  | raisedElsewhere (serviceNo : ℕ)

namespace Lookup

/-- The job just constructed, with `Execute` called. -/
def start (serviceNo : ℕ) : Lookup := ⟨serviceNo, 0, false, 0, .loop, [], [], [], []⟩

/-- `FindService`, and what `Execute` does with its outcome. -/
def findService (s : Lookup) (answered : Bool) : Lookup :=
  if answered then
    { s with answers := s.answers ++ [true], serviceFound := true, numAttempts := maxNumAttempts }
  else
    { s with
      answers := s.answers ++ [false], numAttempts := s.numAttempts + 1, point := .raise }

/-- What `Execute` does behind its loop. -/
def conclude (s : Lookup) (connectToServer : Int32) : Lookup :=
  if s.serviceFound then
    { s with
      socketFd := connectToServer
      connects := s.connects ++ [connectToServer]
      raised := s.raised ++
        [if connectToServer ≠ -1 then .serviceStatusInd .connected s.serviceNo connectToServer
          else .serviceStatusInd .disconnected s.serviceNo (-1)]
      point := .finished }
  else
    { s with
      raised := s.raised ++ [.serviceStatusInd .notFound s.serviceNo (-1)], point := .finished }

/-- `Execute` goes on. The wait releases the mutex, and whoever has been notified locks it
again, which it can as the handler holds it for a moment only. -/
def execute (s : Lookup) (answered : Bool) (connectToServer : Int32) : Lookup :=
  match s.point with
  | .loop =>
    if s.numAttempts < maxNumAttempts then s.findService answered
    else s.conclude connectToServer
  | .raise => { s with timeouts := s.timeouts ++ [s.serviceNo], point := .lock }
  | .lock => { s with point := .wait }
  | .wait => { s with point := .waiting }
  | .waiting => s
  | .notified => { s with point := .loop }
  | .finished => s

/-- `notify_one`. -/
def notify (s : Lookup) : Lookup :=
  if s.point = .waiting then { s with point := .notified } else s

/-- The delivery of a timeout: `HandleEvent` for one of the own service has to wait for the
mutex while `Execute` holds it. -/
def handleEvent (s : Lookup) (i : ℕ) : Lookup :=
  match s.timeouts[i]? with
  | none => s
  | some n =>
    if n = s.serviceNo then
      if s.point = .wait then s else { s with timeouts := s.timeouts.eraseIdx i }.notify
    else { s with timeouts := s.timeouts.eraseIdx i }

def step (s : Lookup) : LookupAction → Lookup
  | .execute answered connectToServer => s.execute answered connectToServer
  | .deliver i => s.handleEvent i
  | .raisedElsewhere n => { s with timeouts := s.timeouts ++ [n] }

/-! ## The law -/

/-- `Execute` is not in the wait without a timeout in flight that will notify it. -/
def NeverBlocked (s : Lookup) : Prop := s.point = .waiting → s.serviceNo ∈ s.timeouts

/-- Nothing is reported before the end and one status at the end, and a service is reported
as connected only if one of at most five attempts has been answered and the connect behind
it has succeeded. -/
structure OneVerdict (s : Lookup) : Prop where
  once : s.raised.length = if s.point = .finished then 1 else 0
  connected : ∀ n fd, .serviceStatusInd .connected n fd ∈ s.raised →
    n = s.serviceNo ∧ s.answers.length ≤ maxNumAttempts ∧ true ∈ s.answers ∧
      s.connects = [fd] ∧ fd ≠ -1

/-- Whenever `Execute` begins to wait, a timeout of its service is still in flight. -/
def WaitsArmed (s : Lookup) : LookupAction → Prop
  | .execute _ _ => s.point = .wait → s.serviceNo ∈ s.timeouts
  | _ => True

/-- The scheduler lets `Execute` go on again and again, and a timeout of the own service in
flight will be delivered. -/
structure Fair (serviceNo : ℕ) (schedule : ℕ → LookupAction) : Prop where
  executes : ∀ n, ∃ m, n ≤ m ∧ ∃ answered fd, schedule m = .execute answered fd
  delivers : ∀ n, serviceNo ∈ (stateAt step (start serviceNo) schedule n).timeouts →
    ∃ m, n ≤ m ∧ ∃ i, schedule m = .deliver i ∧
      (stateAt step (start serviceNo) schedule m).timeouts[i]? = some serviceNo ∧
      (stateAt step (start serviceNo) schedule m).point ≠ .wait

/-! ## The verdict -/

variable {s : Lookup}

/-- What the data of the job say at any point. -/
structure Consistent (s : Lookup) : Prop where
  attempts : s.numAttempts ≤ maxNumAttempts
  unanswered : s.serviceFound = false → s.answers = List.replicate s.numAttempts false
  answered : s.serviceFound = true → (s.point = .loop ∨ s.point = .finished) ∧
    s.numAttempts = maxNumAttempts ∧
    ∃ k, k < maxNumAttempts ∧ s.answers = List.replicate k false ++ [true]
  running : s.point ≠ .finished → s.raised = [] ∧ s.connects = []
  done : s.point = .finished → s.numAttempts = maxNumAttempts ∧
    s.connects.length = (if s.serviceFound then 1 else 0) ∧
    s.raised = [EthTermConnectService.execute s.serviceNo (fun i => s.answers.getD i false)
      (s.connects.headD (-1))]

theorem consistent_start (serviceNo : ℕ) : (start serviceNo).Consistent where
  attempts := by simp [start]
  unanswered _ := rfl
  answered found := by cases found
  running _ := ⟨rfl, rfl⟩
  done finished := by cases finished

end Lookup

/-- The attempts are made up to the first that is answered. -/
theorem EthTermConnectService.findWithin_eq_true_iff {attempts : ℕ} {answered : ℕ → Bool} :
    findWithin attempts answered = true ↔ ∃ i, i < attempts ∧ answered i = true := by
  induction attempts generalizing answered with
  | zero => simp [findWithin]
  | succ attempts ih =>
    rw [findWithin]
    split
    · exact iff_of_true rfl ⟨0, by omega, ‹_›⟩
    · rename_i first
      rw [ih]
      constructor
      · intro ⟨i, hi, hanswer⟩
        exact ⟨i + 1, by omega, hanswer⟩
      · intro ⟨i, hi, hanswer⟩
        cases i with
        | zero => exact absurd hanswer first
        | succ i => exact ⟨i, by omega, hanswer⟩

theorem EthTermConnectService.execute_of_found {serviceNo : ℕ} {answered : ℕ → Bool}
    (found : findWithin maxNumAttempts answered = true) (connectToServer : Int32) :
    EthTermConnectService.execute serviceNo answered connectToServer =
      if connectToServer ≠ -1 then .serviceStatusInd .connected serviceNo connectToServer
      else .serviceStatusInd .disconnected serviceNo (-1) := by
  rw [EthTermConnectService.execute, outcome, if_pos found]
  split <;> rfl

theorem EthTermConnectService.execute_of_not_found {serviceNo : ℕ} {answered : ℕ → Bool}
    (unfound : findWithin maxNumAttempts answered = false) (connectToServer : Int32) :
    EthTermConnectService.execute serviceNo answered connectToServer =
      .serviceStatusInd .notFound serviceNo (-1) := by
  rw [EthTermConnectService.execute, outcome, if_neg (by simp [unfound])]

namespace Lookup

variable {s : Lookup}

/-- The attempts made are those of a search that ends as this one has. -/
theorem Consistent.findWithin_answers (consistent : s.Consistent) :
    findWithin maxNumAttempts (fun i => s.answers.getD i false) = s.serviceFound := by
  cases found : s.serviceFound with
  | true =>
    obtain ⟨-, -, k, hk, hanswers⟩ := consistent.answered found
    exact findWithin_eq_true_iff.mpr ⟨k, hk, by simp [hanswers]⟩
  | false =>
    refine Bool.eq_false_iff.mpr fun hfound => ?_
    obtain ⟨i, hi, hanswer⟩ := findWithin_eq_true_iff.mp hfound
    simp [consistent.unanswered found] at hanswer

theorem consistent_findService (consistent : s.Consistent) (loop : s.point = .loop)
    (more : s.numAttempts < maxNumAttempts) (answered : Bool) :
    (s.findService answered).Consistent := by
  have unfound : s.serviceFound = false := by
    refine Bool.eq_false_iff.mpr fun found => ?_
    have := (consistent.answered found).2.1
    omega
  have unanswered := consistent.unanswered unfound
  have running := consistent.running (by simp [loop])
  cases answered with
  | true =>
    refine ⟨le_refl _, by simp [findService], fun _ => ⟨.inl loop, rfl, s.numAttempts, more, ?_⟩,
      fun _ => running, by simp [findService, loop]⟩
    simp [findService, unanswered]
  | false =>
    refine ⟨more, fun _ => ?_, by simp [findService, unfound], fun _ => running,
      by simp [findService]⟩
    simp [findService, unanswered, List.replicate_succ']

theorem consistent_conclude (consistent : s.Consistent) (loop : s.point = .loop)
    (exhausted : ¬s.numAttempts < maxNumAttempts) (connectToServer : Int32) :
    (s.conclude connectToServer).Consistent := by
  obtain ⟨hraised, hconnects⟩ := consistent.running (by simp [loop])
  have attempts : s.numAttempts = maxNumAttempts := by
    have := consistent.attempts
    omega
  cases found : s.serviceFound with
  | true =>
    obtain ⟨-, -, k, hk, hanswers⟩ := consistent.answered found
    have outcome := consistent.findWithin_answers.trans found
    refine ⟨by simp [conclude, found, attempts], by simp [conclude, found], ?_,
      by simp [conclude, found], ?_⟩
    · intro _
      rw [conclude, if_pos found]
      exact ⟨.inr rfl, attempts, k, hk, hanswers⟩
    · intro _
      rw [conclude, if_pos found]
      refine ⟨attempts, by simp [hconnects, found], ?_⟩
      rw [hraised, hconnects, execute_of_found outcome]
      rfl
  | false =>
    have outcome := consistent.findWithin_answers.trans found
    refine ⟨by simp [conclude, found, attempts], ?_, by simp [conclude, found],
      by simp [conclude, found], ?_⟩
    · intro _
      simpa [conclude, found] using consistent.unanswered found
    · intro _
      rw [conclude, if_neg (by simp [found])]
      refine ⟨attempts, by simp [hconnects, found], ?_⟩
      rw [hraised, execute_of_not_found outcome]
      rfl

/-- A step that leaves the data alone, away from the end. -/
theorem Consistent.moved (consistent : s.Consistent) {point : LookupPoint} {timeouts : List ℕ}
    (here : s.point ≠ .finished) (there : point ≠ .finished)
    (unfound : s.point ≠ .loop ∨ point = .loop) :
    ({ s with point := point, timeouts := timeouts } : Lookup).Consistent where
  attempts := consistent.attempts
  unanswered := consistent.unanswered
  answered found := by
    obtain ⟨hpoint, hrest⟩ := consistent.answered found
    refine ⟨?_, hrest⟩
    rcases hpoint with hloop | hfinished
    · exact .inl (unfound.resolve_left (not_not.mpr hloop))
    · exact absurd hfinished here
  running _ := consistent.running here
  done finished := absurd finished there

theorem Consistent.rearmed (consistent : s.Consistent) (timeouts : List ℕ) :
    ({ s with timeouts := timeouts } : Lookup).Consistent :=
  ⟨consistent.attempts, consistent.unanswered, consistent.answered, consistent.running,
    consistent.done⟩

theorem consistent_execute (consistent : s.Consistent) (answered : Bool)
    (connectToServer : Int32) : (s.execute answered connectToServer).Consistent := by
  cases hpoint : s.point <;> simp only [execute, hpoint]
  case loop =>
    split
    · exact consistent_findService consistent hpoint ‹_› answered
    · exact consistent_conclude consistent hpoint ‹_› connectToServer
  case raise => exact consistent.moved (by simp [hpoint]) nofun (.inl (by simp [hpoint]))
  case lock => exact consistent.moved (by simp [hpoint]) nofun (.inl (by simp [hpoint]))
  case wait => exact consistent.moved (by simp [hpoint]) nofun (.inl (by simp [hpoint]))
  case waiting => exact consistent
  case notified => exact consistent.moved (by simp [hpoint]) nofun (.inr rfl)
  case finished => exact consistent

theorem consistent_notify (consistent : s.Consistent) : s.notify.Consistent := by
  rw [notify]
  split
  · rename_i waiting
    exact consistent.moved (by simp [waiting]) nofun (.inl (by simp [waiting]))
  · exact consistent

theorem consistent_step (consistent : s.Consistent) (action : LookupAction) :
    (s.step action).Consistent := by
  cases action with
  | execute answered connectToServer =>
    exact consistent_execute consistent answered connectToServer
  | deliver i =>
    simp only [step, handleEvent]
    split
    · exact consistent
    · split_ifs
      · exact consistent
      · exact consistent_notify (consistent.rearmed _)
      · exact consistent.rearmed _
  | raisedElsewhere n => exact consistent.rearmed _

theorem Consistent.oneVerdict (consistent : s.Consistent) : s.OneVerdict := by
  by_cases finished : s.point = .finished
  · obtain ⟨-, hconnects, hraised⟩ := consistent.done finished
    refine ⟨by simp [hraised, finished], fun n fd hmem => ?_⟩
    rw [hraised, List.mem_singleton] at hmem
    cases found : s.serviceFound with
    | true =>
      obtain ⟨-, -, k, hk, hanswers⟩ := consistent.answered found
      have outcome := consistent.findWithin_answers.trans found
      obtain ⟨c, hc⟩ := List.length_eq_one_iff.mp (by simpa [found] using hconnects)
      rw [execute_of_found outcome, hc, List.headD_cons] at hmem
      have succeeded : c ≠ -1 := by
        intro failed
        simp [failed] at hmem
      rw [if_pos succeeded] at hmem
      injection hmem with _ hn hfd
      subst hfd hn
      exact ⟨rfl, by simp [hanswers]; omega, by simp [hanswers], hc, succeeded⟩
    | false =>
      have outcome := consistent.findWithin_answers.trans found
      rw [execute_of_not_found outcome] at hmem
      cases hmem
  · obtain ⟨hraised, -⟩ := consistent.running finished
    exact ⟨by simp [hraised, finished], by simp [hraised]⟩

/-! ## What keeps the wait from blocking -/

theorem serviceNo_step (s : Lookup) (action : LookupAction) :
    (s.step action).serviceNo = s.serviceNo := by
  cases action with
  | execute answered connectToServer =>
    simp only [step, execute, findService, conclude]
    split
    · split_ifs
      all_goals rfl
    all_goals rfl
  | deliver i =>
    simp only [step, handleEvent, notify]
    split
    · rfl
    · split_ifs <;> rfl
  | raisedElsewhere n => rfl

/-- A wait that is not blocked stays so, and it is entered armed. -/
theorem neverBlocked_step (free : s.NeverBlocked) {action : LookupAction}
    (armed : s.WaitsArmed action) : (s.step action).NeverBlocked := by
  cases action with
  | execute answered connectToServer =>
    cases hpoint : s.point <;> simp only [step, execute, hpoint]
    case loop =>
      intro waiting
      rw [findService, conclude] at waiting
      split_ifs at waiting
      simp [hpoint] at waiting
    case wait => exact fun _ => armed hpoint
    case waiting => exact free
    case finished => exact free
    all_goals exact nofun
  | deliver i =>
    simp only [step, handleEvent]
    split
    · exact free
    · rename_i n hn
      split_ifs with own held
      · exact free
      · intro waiting
        rw [notify] at waiting
        split at waiting
        · cases waiting
        · exact absurd waiting ‹_›
      · intro waiting
        -- the timeout delivered is not the one that the wait is armed with
        obtain ⟨j, hj⟩ := List.mem_iff_getElem?.mp (free waiting)
        refine List.mem_eraseIdx_iff_getElem?.mpr ⟨j, ?_, hj⟩
        rintro rfl
        exact own (Option.some.inj (hn.symm.trans hj))
  | raisedElsewhere n => exact fun waiting => List.mem_append_left _ (free waiting)

theorem waitsArmed_of_neverBlocked_step {action : LookupAction}
    (free : (s.step action).NeverBlocked) : s.WaitsArmed action := by
  cases action with
  | execute answered connectToServer =>
    intro wait
    simp only [step, execute, wait] at free
    exact free rfl
  | deliver i => trivial
  | raisedElsewhere n => trivial

/-! ## The end of the lookup -/

/-- How far `Execute` is from its end: six points a round, and the last test. -/
def rank (s : Lookup) : ℕ :=
  match s.point with
  | .loop => 6 * (maxNumAttempts - s.numAttempts) + 1
  | .raise => 6 * (maxNumAttempts - s.numAttempts) + 6
  | .lock => 6 * (maxNumAttempts - s.numAttempts) + 5
  | .wait => 6 * (maxNumAttempts - s.numAttempts) + 4
  | .waiting => 6 * (maxNumAttempts - s.numAttempts) + 3
  | .notified => 6 * (maxNumAttempts - s.numAttempts) + 2
  | .finished => 0

/-- `Execute` comes nearer to its end whenever it goes on, unless it waits or has got
there. -/
theorem rank_execute_lt (answered : Bool) (connectToServer : Int32)
    (awake : s.point ≠ .waiting) (unfinished : s.point ≠ .finished) :
    (s.execute answered connectToServer).rank < s.rank := by
  cases hpoint : s.point <;> simp only [execute, hpoint]
  case loop =>
    rw [findService, conclude]
    split_ifs <;> simp [rank, hpoint] <;> omega
  case waiting => exact absurd hpoint awake
  case finished => exact absurd hpoint unfinished
  all_goals simp [rank, hpoint]

theorem rank_notify_lt (waiting : s.point = .waiting) : s.notify.rank < s.rank := by
  simp [notify, rank, waiting]

theorem rank_notify_le (s : Lookup) : s.notify.rank ≤ s.rank := by
  by_cases waiting : s.point = .waiting
  · exact (rank_notify_lt waiting).le
  · simp [notify, waiting]

theorem rank_step_le (s : Lookup) (action : LookupAction) : (s.step action).rank ≤ s.rank := by
  cases action with
  | execute answered connectToServer =>
    by_cases awake : s.point = .waiting
    · simp [step, execute, awake]
    · by_cases unfinished : s.point = .finished
      · simp [step, execute, unfinished]
      · exact (rank_execute_lt answered connectToServer awake unfinished).le
  | deliver i =>
    simp only [step, handleEvent]
    split
    · exact le_refl _
    · split_ifs
      · exact le_refl _
      · exact rank_notify_le _
      · exact le_refl _
  | raisedElsewhere n => exact le_refl _

/-- A wait keeps its rank to itself. -/
theorem waiting_of_rank_eq {s t : Lookup} (waiting : s.point = .waiting)
    (same : t.rank = s.rank) : t.point = .waiting := by
  cases hpoint : t.point <;> simp only [rank, hpoint, waiting] at same
  case waiting => rfl
  all_goals omega

theorem rank_lt_of_finished {s t : Lookup} (finished : t.point = .finished)
    (unfinished : s.point ≠ .finished) : t.rank < s.rank := by
  cases hpoint : s.point <;> simp only [rank, hpoint, finished]
  case finished => exact absurd hpoint unfinished
  all_goals omega

section FairRuns

variable {serviceNo : ℕ} {schedule : ℕ → LookupAction}

theorem serviceNo_stateAt (n : ℕ) :
    (stateAt step (start serviceNo) schedule n).serviceNo = serviceNo := by
  induction n with
  | zero => rfl
  | succ n ih => rw [stateAt_succ, serviceNo_step, ih]

/-- A wait that is not blocked is left. -/
theorem rank_lowered_of_waiting (fair : Fair serviceNo schedule) (n : ℕ)
    (free : (stateAt step (start serviceNo) schedule n).NeverBlocked)
    (waiting : (stateAt step (start serviceNo) schedule n).point = .waiting) :
    ∃ m, n ≤ m ∧ (stateAt step (start serviceNo) schedule m).rank <
      (stateAt step (start serviceNo) schedule n).rank := by
  have armed := free waiting
  rw [serviceNo_stateAt] at armed
  obtain ⟨m, hm, i, hdeliver, hown, hmutex⟩ := fair.delivers n armed
  rcases (rank_stateAt_le rank_step_le hm).lt_or_eq with hless | hsame
  · exact ⟨m, hm, hless⟩
  · -- `Execute` is still in the wait, so the timeout notifies it
    have still := waiting_of_rank_eq waiting hsame
    refine ⟨m + 1, by omega, ?_⟩
    rw [stateAt_succ, hdeliver, ← hsame]
    simp only [step, handleEvent, hown, serviceNo_stateAt, if_true, if_neg hmutex]
    exact rank_notify_lt still

/-- Sooner or later `Execute` comes nearer to its end, if its waits are never blocked. -/
theorem rank_lowered (fair : Fair serviceNo schedule)
    (free : ∀ n, (stateAt step (start serviceNo) schedule n).NeverBlocked) (n : ℕ)
    (unfinished : (stateAt step (start serviceNo) schedule n).point ≠ .finished) :
    ∃ m, n ≤ m ∧ (stateAt step (start serviceNo) schedule m).rank <
      (stateAt step (start serviceNo) schedule n).rank := by
  obtain ⟨m, hm, answered, fd, hexecute⟩ := fair.executes n
  have hle : (stateAt step (start serviceNo) schedule m).rank ≤
      (stateAt step (start serviceNo) schedule n).rank := rank_stateAt_le rank_step_le hm
  by_cases finished : (stateAt step (start serviceNo) schedule m).point = .finished
  · exact ⟨m, hm, rank_lt_of_finished finished unfinished⟩
  by_cases waiting : (stateAt step (start serviceNo) schedule m).point = .waiting
  · obtain ⟨k, hk, hless⟩ := rank_lowered_of_waiting fair m (free m) waiting
    exact ⟨k, hm.trans hk, hless.trans_le hle⟩
  · refine ⟨m + 1, by omega, ?_⟩
    rw [stateAt_succ, hexecute]
    exact (rank_execute_lt answered fd waiting finished).trans_le hle

/-- The end is not left. -/
theorem finished_stateAt {m n : ℕ} (le : n ≤ m)
    (finished : (stateAt step (start serviceNo) schedule n).point = .finished) :
    (stateAt step (start serviceNo) schedule m).point = .finished := by
  have hle : (stateAt step (start serviceNo) schedule m).rank ≤
      (stateAt step (start serviceNo) schedule n).rank := rank_stateAt_le rank_step_le le
  by_contra unfinished
  have := rank_lt_of_finished finished unfinished
  omega

end FairRuns

/-- `Execute` is never blocked, and never reports more than one verdict, along exactly the
runs in which each of its waits begins with a timeout of the service in flight. A fair run
of this kind ends with one status reported. -/
theorem neverBlocked_iff_waitsArmed (serviceNo : ℕ) :
    (∀ actions, Along step (fun s action => NeverBlocked (step s action) ∧
        OneVerdict (step s action)) (start serviceNo) actions ↔
      Along step WaitsArmed (start serviceNo) actions) ∧
    ∀ schedule, Fair serviceNo schedule →
      (∀ n, WaitsArmed (stateAt step (start serviceNo) schedule n) (schedule n)) →
      ∃ n, ∀ m, n ≤ m → (stateAt step (start serviceNo) schedule m).OneVerdict ∧
        (stateAt step (start serviceNo) schedule m).raised.length = 1 := by
  have holds : (start serviceNo).Consistent ∧ (start serviceNo).NeverBlocked :=
    ⟨consistent_start serviceNo, nofun⟩
  have keeps : ∀ (s : Lookup) action, s.Consistent ∧ s.NeverBlocked → s.WaitsArmed action →
      (s.step action).Consistent ∧ (s.step action).NeverBlocked := by
    intro s action ⟨consistent, free⟩ armed
    exact ⟨consistent_step consistent action, neverBlocked_step free armed⟩
  constructor
  · intro actions
    refine @along_law_iff _ _ step _ _ (fun s => s.NeverBlocked ∧ s.OneVerdict) keeps ?_ ?_ _
      holds actions
    · intro s ⟨consistent, free⟩
      exact ⟨free, consistent.oneVerdict⟩
    · intro s action _ ⟨free, _⟩
      exact waitsArmed_of_neverBlocked_step free
  · intro schedule fair armed
    have inv := stateAt_invariant keeps holds armed
    obtain ⟨n, -, finished⟩ := @eventually_of_rank _ _ step _ _
      (fun s => s.point = .finished) rank (rank_lowered fair fun n => (inv n).2) 0
    refine ⟨n, fun m hm => ?_⟩
    have verdict := (inv m).1.oneVerdict
    refine ⟨verdict, ?_⟩
    rw [verdict.once, if_pos (finished_stateAt hm finished)]

/-- A lookup whose first attempt is not answered, with the timeout delivered in the wait. -/
def secondAttempt (n : ℕ) : LookupAction :=
  if n = 4 then .deliver 0 else .execute (n ≠ 0) 3

theorem stateAt_secondAttempt (n : ℕ) :
    stateAt step (start 5052) secondAttempt (n + 8) =
      ⟨5052, 5, true, 3, .finished, [], [false, true], [3],
        [.serviceStatusInd .connected 5052 3]⟩ := by
  induction n with
  | zero => rfl
  | succ n ih =>
    rw [show n + 1 + 8 = n + 8 + 1 by omega, stateAt_succ, ih, secondAttempt, if_neg (by omega)]
    rfl

theorem fair_secondAttempt : Fair 5052 secondAttempt where
  executes n := ⟨n + 5, by omega, _, _, if_neg (by omega)⟩
  delivers n armed := by
    by_cases before : n ≤ 4
    · exact ⟨4, before, 0, rfl, rfl, nofun⟩
    · exfalso
      by_cases early : n < 8
      · interval_cases n <;> exact absurd armed (by decide)
      · obtain ⟨k, rfl⟩ := Nat.exists_eq_add_of_le' (not_lt.mp early)
        rw [stateAt_secondAttempt] at armed
        cases armed

theorem reported_secondAttempt :
    ∃ n, ∀ m, n ≤ m → (stateAt step (start 5052) secondAttempt m).OneVerdict ∧
      (stateAt step (start 5052) secondAttempt m).raised.length = 1 := by
  refine (neverBlocked_iff_waitsArmed 5052).2 secondAttempt fair_secondAttempt fun n => ?_
  by_cases early : n < 8
  · interval_cases n <;> simp [secondAttempt, WaitsArmed, stateAt, step, execute, start,
      handleEvent, findService, notify, maxNumAttempts]
  · obtain ⟨k, rfl⟩ := Nat.exists_eq_add_of_le' (not_lt.mp early)
    rw [stateAt_secondAttempt, secondAttempt, if_neg (by omega)]
    exact nofun

/-- A timeout delivered before `Execute` locks the mutex notifies no one: the lookup reports
nothing, whatever `Execute` and the deliveries do from there. -/
theorem blocked_forever :
    let s := run step (start 5052)
      [.execute false 3, .execute false 3, .deliver 0, .execute false 3, .execute false 3]
    ¬s.NeverBlocked ∧ s.raised = [] ∧ (∀ answered fd, s.step (.execute answered fd) = s) ∧
      ∀ i, s.step (.deliver i) = s :=
  ⟨fun free => absurd (free rfl) List.not_mem_nil, rfl, fun _ _ => rfl, fun _ => rfl⟩

end Lookup

end PiVision
