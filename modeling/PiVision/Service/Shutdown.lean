import PiVision.Lib.Weight
import PiVision.Service.Announcements
import PiVision.Service.Cascade

/-!
# How a program ends

A program with a frame coordinator ends three seconds behind `PIVISION_EVENT_STOP`, which is
raised three seconds behind the camera being lost. Nothing counts how often that happens. What
there is for the camera is one subscription: it becomes one request, one lookup, one status, and
then one connection or one rejection, so the camera is lost at most once, and the program
ends at most once.
-/

namespace PiVision

open Machine

/-- What is passed on from the subscription to the camera to the end of the program. -/
def ServiceEvent.weight : ServiceEvent → ℕ
  | subscribeServiceInd n | connectToServiceReq n | connectToServiceRej n | serviceStatusInd _ n _
  | serviceUnavailableInd n => if n = cameraService then 1 else 0
  | _ => 0

def TerminalJob.weight : TerminalJob → ℕ
  | connectService n => if n = cameraService then 1 else 0
  | connection c => if c.serviceNo = cameraService then 1 else 0
  | serviceListener _ => 0

def Signal.weight (signal : Signal) : ℕ := signal.event.weight

def ApplicationEvent.weight : ApplicationEvent → ℕ
  | stop | shutdownTimeout => 1
  | _ => 0

/-- The handler passes on what it is given, or nothing. -/
theorem ServiceHandler.Handles.weigh_le {h h' : ServiceHandler} {e : ServiceEvent}
    {out : List ServiceEvent} (step : Handles h e h' out) :
    weigh ServiceEvent.weight out ≤ e.weight := by
  cases step with
  | ask | reject => exact Nat.le_of_eq (Nat.add_zero _)
  | _ => exact Nat.zero_le _

theorem Terminal.weigh_raisedFor (service : ServiceHandler.History) (e : ServiceEvent) :
    weigh ServiceEvent.weight (raisedFor service e) ≤ e.weight := by
  rw [raisedFor]
  cases service.state with
  | none => exact Nat.zero_le _
  | some h =>
    show weigh ServiceEvent.weight (h.raisedBy e) ≤ e.weight
    rw [ServiceHandler.raisedBy]
    cases houtcome : h.handleEvent e with
    | none => exact Nat.zero_le _
    | some outcome => exact (ServiceHandler.handles_of_handleEvent houtcome).weigh_le

/-- What the handler does not handle. -/
theorem Terminal.raisedFor_eq_nil {e : ServiceEvent}
    (ignored : ∀ h : ServiceHandler, h.raisedBy e = []) (service : ServiceHandler.History) :
    raisedFor service e = [] := by
  rw [raisedFor]
  cases service.state with
  | none => rfl
  | some h => exact ignored h

namespace Application

variable {p : Program} {a : Application}

theorem raisedEvents_of_ne {e : ServiceEvent} (other : e ≠ .serviceUnavailableInd cameraService) :
    a.raisedEvents e = [] := by
  rw [List.eq_nil_iff_forall_not_mem]
  intro x hmem
  obtain ⟨xs, hxs, hx⟩ := mem_getD_nil.mp hmem
  obtain ⟨s, -, rfl⟩ := Option.map_eq_some_iff.mp hxs
  exact other (FrameCoord.raises_stop hx).1

theorem weigh_raisedEvents_le (a : Application) :
    weigh ApplicationEvent.weight (a.raisedEvents (.serviceUnavailableInd cameraService)) ≤ 1 := by
  rw [raisedEvents]
  cases a.frameCoord with
  | none => exact Nat.zero_le _
  | some s => exact Nat.le_refl 1

/-- Each event is passed on by one of its subscribers only. -/
theorem budget (a : Application) (service : ServiceHandler.History) (e : ServiceEvent) :
    weigh ServiceEvent.weight (Terminal.raisedFor service e) +
        weigh ServiceEvent.weight (EthTerm.handleEvent e).1 +
        weigh TerminalJob.weight (EthTerm.handleEvent e).2 +
        weigh ApplicationEvent.weight (a.raisedEvents e) ≤ e.weight := by
  have hhandler := Terminal.weigh_raisedFor service e
  cases e with
  | connectToServiceReq n =>
    rw [Terminal.raisedFor_eq_nil (fun _ => rfl), raisedEvents_of_ne (by rintro ⟨⟩)]
    exact Nat.le_of_eq (by simp [EthTerm.handleEvent, TerminalJob.weight, ServiceEvent.weight])
  | serviceStatusInd status n socketFd =>
    rw [Terminal.raisedFor_eq_nil (fun _ => rfl), raisedEvents_of_ne (by rintro ⟨⟩)]
    cases status with
    | connected =>
      simp [EthTerm.handleEvent, TerminalJob.weight, ServiceEvent.weight, EthTermConnection.new]
    | disconnected | notFound => simp [EthTerm.handleEvent, ServiceEvent.weight]
  | serviceUnavailableInd n =>
    rw [Terminal.raisedFor_eq_nil (fun _ => rfl)]
    by_cases hn : n = cameraService
    · rw [hn]
      have hstop := a.weigh_raisedEvents_le
      simpa [EthTerm.handleEvent, ServiceEvent.weight] using hstop
    · have hother : ServiceEvent.serviceUnavailableInd n ≠ .serviceUnavailableInd cameraService :=
        fun heq => hn (ServiceEvent.serviceUnavailableInd.inj heq)
      rw [raisedEvents_of_ne hother]
      exact Nat.zero_le _
  | _ =>
    rw [raisedEvents_of_ne (by rintro ⟨⟩)]
    simpa [EthTerm.handleEvent, TerminalJob.weight] using hhandler

/-- What there is for the camera. -/
def total (a : Application) : ℕ :=
  weigh Signal.weight a.terminal.inFlight +
    weigh TerminalJob.weight a.terminal.jobs + weigh ApplicationEvent.weight a.inFlight +
      a.executionFinished

/-- The listeners provide services, which has nothing to do with the camera's end. -/
theorem weigh_raisedServices (a : Application) (e : ServiceEvent) :
    weigh ServiceEvent.weight (a.raisedServices e) = 0 := by
  refine weigh_eq_zero fun x hmem => ?_
  rcases raisedServices_cases hmem with ⟨-, rfl, -⟩ | ⟨-, rfl, -⟩
  · rfl
  · rfl

theorem total_start (p : Program) :
    (start p).total = if p.hasFrameCoord then 1 else 0 := by
  rw [total, start, raiseAll_eq]
  cases p <;> rfl

/-- What is raised weighs what the events do. -/
theorem weigh_signals (events : List ServiceEvent) (origin : Origin) :
    weigh Signal.weight (events.map fun e => ⟨e, origin⟩) = weigh ServiceEvent.weight events :=
  weigh_map _ _ _

theorem total_handleServiceEvent (a : Application) (e : ServiceEvent) :
    (a.handleServiceEvent e).total =
      a.total + weigh ApplicationEvent.weight (a.raisedEvents e) := by
  have hservices := a.weigh_raisedServices e
  rw [total, handleServiceEvent, raiseAll_eq]
  simp only [total, weigh_append, weigh_signals, hservices]
  omega

theorem total_deliver {i : ℕ} {signal : Signal} (sent : a.terminal.inFlight[i]? = some signal) :
    (a.step (.deliver i)).total ≤ a.total := by
  have hbudget := a.budget a.terminal.service signal.event
  have htaken := weigh_eraseIdx Signal.weight sent
  rw [step_deliver sent, total_handleServiceEvent]
  simp only [total, Terminal.deliver, weigh_append, weigh_signals, List.map_append]
  have hsignal : signal.weight = signal.event.weight := rfl
  have hlisteners : ∀ terminal : Terminal,
      raisedEvents { a with terminal := terminal } signal.event = a.raisedEvents signal.event :=
    fun _ => rfl
  rw [hlisteners]
  omega

theorem weight_handleApplicationEvent (s : FrameCoord) (e : ApplicationEvent) :
    weigh ApplicationEvent.weight (s.handleApplicationEvent e).2.1 +
      (if (s.handleApplicationEvent e).2.2 then 1 else 0) ≤ e.weight := by
  cases e with
  | newDataInd n data =>
    simp only [FrameCoord.handleApplicationEvent]
    split <;> exact Nat.le_refl 0
  | colorImageServiceTx data => exact Nat.le_refl 0
  | stop => exact Nat.le_refl 1
  | shutdownTimeout => exact Nat.le_refl 1

theorem total_deliverApplication {i : ℕ} {e : ApplicationEvent} (sent : a.inFlight[i]? = some e) :
    (a.deliverApplication e (a.inFlight.eraseIdx i)).total ≤ a.total := by
  have htaken := weigh_eraseIdx ApplicationEvent.weight sent
  simp only [total, deliverApplication, weigh_append]
  cases hcoord : a.frameCoord with
  | none => simp; omega
  | some s =>
    have hpassed := weight_handleApplicationEvent s e
    simp only [Option.map_some, Option.getD_some]
    omega

/-- A step of a job of the terminal. -/
theorem total_job {terminal : Terminal} {connected : List ℕ}
    (passed : weigh Signal.weight terminal.inFlight + weigh TerminalJob.weight terminal.jobs ≤
      weigh Signal.weight a.terminal.inFlight + weigh TerminalJob.weight a.terminal.jobs) :
    total { a with terminal := terminal, connected := connected } ≤ a.total := by
  simp only [total]
  omega

/-- **One step** of a program passes on what there is for the camera, or less. -/
theorem total_step (a : Application) (action : ApplicationAction) (cascades : a.Cascades p) :
    (a.step action).total ≤ a.total := by
  cases action with
  | deliver i =>
    cases hsent : a.terminal.inFlight[i]? with
    | some signal => exact total_deliver hsent
    | none =>
      simp only [step, hsent]
      exact Nat.le_refl _
  | deliverApplication i =>
    simp only [step]
    split
    · exact total_deliverApplication ‹_›
    · exact Nat.le_refl _
  | lookUp i answered connectToServer =>
    simp only [step]
    split
    · rename_i n hjob
      have htaken := weigh_eraseIdx TerminalJob.weight hjob
      simp only [Terminal.step, hjob]
      refine total_job ?_
      simp only [Terminal.raise, weigh_append, weigh_cons, weigh_nil, Signal.weight,
        EthTermConnectService.execute, ServiceEvent.weight]
      simp only [TerminalJob.weight] at htaken
      omega
    · exact Nat.le_refl _
  | accept i clientSocket =>
    simp only [step, Terminal.step]
    split
    · rename_i n hjob
      -- the camera is not provided, so nobody listens for its consumers
      have hother : n ≠ cameraService := by
        rintro rfl
        rcases cascades.jobs _ (List.mem_of_getElem? hjob) with ⟨hn, -⟩ | ⟨hn, -⟩
        · cases hn
        · cases hn
      refine total_job ?_
      simp [TerminalJob.weight, EthTermConnection.new, hother]
    · exact Nat.le_refl _
  | endExecute i =>
    simp only [step, Terminal.step]
    split
    · rename_i c hjob
      have htaken := weigh_eraseIdx TerminalJob.weight hjob
      refine total_job ?_
      simp only [Terminal.raise, weigh_append, weigh_cons, weigh_nil, Signal.weight,
        EthTermConnection.statusAtEnd, ServiceEvent.weight]
      simp only [TerminalJob.weight] at htaken
      omega
    · exact Nat.le_refl _
  | receive i data =>
    simp only [step]
    split
    · simp [total, ApplicationEvent.weight]
    · exact Nat.le_refl _

/-! ## The camera has been lost -/

/-- The camera has been announced as unavailable. -/
def CameraLost (a : Application) : Prop :=
  ∃ announcement ∈ a.terminal.announced, announcement.serviceNo = cameraService

/-- What leads to the end of the program comes behind the announcement. -/
structure Accountable (a : Application) : Prop where
  signals : ∀ signal ∈ a.terminal.inFlight, signal.event = .serviceUnavailableInd cameraService →
    a.CameraLost
  events : ∀ e ∈ a.inFlight, 0 < e.weight → a.CameraLost
  finished : 0 < a.executionFinished → a.CameraLost

theorem accountable_start (p : Program) : (start p).Accountable where
  signals signal hmem hevent := by
    rw [start, raiseAll_eq] at hmem
    obtain ⟨e, he, rfl⟩ := List.mem_map.mp hmem
    obtain ⟨n, rfl⟩ := eq_subscribe_of_mem he
    cases hevent
  events e hmem := absurd hmem List.not_mem_nil
  finished pos := absurd pos (Nat.lt_irrefl 0)

theorem Accountable.deliver (accountable : a.Accountable) {i : ℕ} {signal : Signal}
    (sent : a.terminal.inFlight[i]? = some signal) : (a.step (.deliver i)).Accountable := by
  rw [step_deliver sent, handleServiceEvent, raiseAll_eq]
  have hkept : a.CameraLost → CameraLost { a with
      terminal := a.terminal.deliver signal (a.terminal.inFlight.eraseIdx i) } := by
    rintro ⟨announcement, hmem, hcamera⟩
    exact ⟨announcement, List.mem_append_left _ hmem, hcamera⟩
  constructor
  · intro signal' hmem hevent
    rcases List.mem_append.mp hmem with hterminal | hraised
    · rcases Terminal.mem_inFlight_deliver.mp hterminal with hrest | ⟨-, hhandler | hterm⟩
      · exact hkept (accountable.signals signal' (List.mem_of_mem_eraseIdx hrest) hevent)
      · rw [hevent] at hhandler
        exact ⟨_, List.mem_append_right _
          (Terminal.mem_announcements.mpr ⟨cameraService, hhandler, rfl⟩), rfl⟩
      · rw [hevent] at hterm
        cases hsignal : signal.event with
        | serviceStatusInd status n socketFd =>
          rw [hsignal] at hterm
          cases status <;> cases List.mem_singleton.mp hterm
        | _ =>
          rw [hsignal] at hterm
          cases hterm
    · obtain ⟨x, hx, rfl⟩ := List.mem_map.mp hraised
      have hx : x ∈ a.raisedServices signal.event := hx
      rcases raisedServices_cases hx with ⟨-, rfl, -⟩ | ⟨-, rfl, -⟩
      · cases hevent
      · cases hevent
  · intro e hmem pos
    rcases List.mem_append.mp hmem with hbefore | hraised
    · exact hkept (accountable.events e hbefore pos)
    · obtain ⟨xs, hxs, hx⟩ := mem_getD_nil.mp hraised
      obtain ⟨s, -, rfl⟩ := Option.map_eq_some_iff.mp hxs
      exact hkept (accountable.signals signal (List.mem_of_getElem? sent)
        (FrameCoord.raises_stop hx).1)
  · exact fun pos => hkept (accountable.finished pos)

theorem Accountable.deliverApplication (accountable : a.Accountable) {i : ℕ} {e : ApplicationEvent}
    (sent : a.inFlight[i]? = some e) :
    (a.deliverApplication e (a.inFlight.eraseIdx i)).Accountable := by
  have hpassed (s : FrameCoord) := weight_handleApplicationEvent s e
  have hlost : 0 < e.weight → a.CameraLost := accountable.events e (List.mem_of_getElem? sent)
  refine ⟨accountable.signals, ?_, ?_⟩
  · intro e' hmem pos
    rcases List.mem_append.mp hmem with hrest | hraised
    · exact accountable.events e' (List.mem_of_mem_eraseIdx hrest) pos
    · obtain ⟨xs, hxs, hx⟩ := mem_getD_nil.mp hraised
      obtain ⟨s, -, rfl⟩ := Option.map_eq_some_iff.mp hxs
      have hweight := le_weigh_of_mem ApplicationEvent.weight hx
      have hbudget := hpassed s
      exact hlost (by omega)
  · intro pos
    by_cases hbefore : 0 < a.executionFinished
    · exact accountable.finished hbefore
    · simp only [Application.deliverApplication] at pos
      cases hcoord : a.frameCoord with
      | none =>
        rw [hcoord] at pos
        exact absurd pos (by simpa using hbefore)
      | some s =>
        rw [hcoord] at pos
        have hbudget := hpassed s
        simp only [Option.map_some, Option.getD_some] at pos
        exact hlost (by omega)

/-- **One step** of a program. -/
theorem accountable_step (a : Application) (action : ApplicationAction)
    (accountable : a.Accountable) : (a.step action).Accountable := by
  cases action with
  | deliver i =>
    cases hsent : a.terminal.inFlight[i]? with
    | some signal => exact accountable.deliver hsent
    | none =>
      simp only [step, hsent]
      exact accountable
  | deliverApplication i =>
    simp only [step]
    split
    · exact accountable.deliverApplication ‹_›
    · exact accountable
  | lookUp i answered connectToServer =>
    simp only [step]
    split
    · rename_i n hjob
      simp only [Terminal.step, hjob]
      refine ⟨fun signal hmem hevent => ?_, accountable.events, accountable.finished⟩
      rcases Terminal.mem_inFlight_raise.mp hmem with hbefore | rfl
      · exact accountable.signals signal hbefore hevent
      · cases hevent
    · exact accountable
  | accept i clientSocket =>
    simp only [step, Terminal.step]
    split
    · exact ⟨accountable.signals, accountable.events, accountable.finished⟩
    · exact accountable
  | endExecute i =>
    simp only [step, Terminal.step]
    split
    · refine ⟨fun signal hmem hevent => ?_, accountable.events, accountable.finished⟩
      rcases Terminal.mem_inFlight_raise.mp hmem with hbefore | rfl
      · exact accountable.signals signal hbefore hevent
      · cases hevent
    · exact accountable
  | receive i data =>
    simp only [step]
    split
    · refine ⟨accountable.signals, fun e hmem pos => ?_, accountable.finished⟩
      rcases List.mem_append.mp hmem with hbefore | hnew
      · exact accountable.events e hbefore pos
      · rw [List.mem_singleton.mp hnew] at pos
        exact absurd pos (Nat.lt_irrefl 0)
    · exact accountable

/-! ## The end of the program -/

/-- `NotifyExecutionFinished` is called once at most. By then the camera has been lost, no job
has to do with it any more, and nothing will stop the program again. -/
structure EndsOnce (p : Program) (a : Application) : Prop where
  once : a.executionFinished ≤ 1
  lost : 0 < a.executionFinished → a.CameraLost
  noLookup : 0 < a.executionFinished → .connectService cameraService ∉ a.terminal.jobs
  noConnection : 0 < a.executionFinished →
    ∀ c, .connection c ∈ a.terminal.jobs → c.serviceNo ≠ cameraService
  noStop : 0 < a.executionFinished → .stop ∉ a.inFlight ∧ .shutdownTimeout ∉ a.inFlight
  never : p.hasFrameCoord = false → a.executionFinished = 0

/-- **A program ends once at most**, and only without its camera, whatever the order of the
deliveries and of the jobs' steps. The program without a frame coordinator does not end. -/
theorem endsOnce_run (p : Program) (actions : List ApplicationAction) :
    (run step (start p) actions).EndsOnce p := by
  have hpreserved (a : Application) (action : ApplicationAction)
      (inv : a.Cascades p ∧ a.Accountable ∧ a.total ≤ if p.hasFrameCoord then 1 else 0) :
      (a.step action).Cascades p ∧ (a.step action).Accountable ∧
        (a.step action).total ≤ if p.hasFrameCoord then 1 else 0 :=
    ⟨cascades_step a action inv.1, accountable_step a action inv.2.1,
      Nat.le_trans (total_step a action inv.1) inv.2.2⟩
  obtain ⟨-, haccountable, htotal⟩ := run_invariant step hpreserved
    ⟨cascades_start p, accountable_start p, Nat.le_of_eq (total_start p)⟩ actions
  generalize run step (start p) actions = a at haccountable htotal ⊢
  have hone : a.total ≤ 1 := Nat.le_trans htotal (by split <;> omega)
  rw [total] at hone htotal
  refine ⟨by omega, haccountable.finished, fun pos hmem => ?_, fun pos c hmem hcamera => ?_,
    fun pos => ⟨fun hmem => ?_, fun hmem => ?_⟩, fun hcoord => ?_⟩
  · have hweight : 1 ≤ weigh TerminalJob.weight a.terminal.jobs :=
      le_weigh_of_mem TerminalJob.weight hmem
    omega
  · have hweight := le_weigh_of_mem TerminalJob.weight hmem
    rw [TerminalJob.weight, if_pos hcamera] at hweight
    omega
  · have hweight : 1 ≤ weigh ApplicationEvent.weight a.inFlight :=
      le_weigh_of_mem ApplicationEvent.weight hmem
    omega
  · have hweight : 1 ≤ weigh ApplicationEvent.weight a.inFlight :=
      le_weigh_of_mem ApplicationEvent.weight hmem
    omega
  · rw [hcoord] at htotal
    simp only [Bool.false_eq_true, if_false] at htotal
    omega

end Application

end PiVision
