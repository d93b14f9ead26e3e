import PiVision.Service.Confirmations

/-!
# The programs

A program in C++ is the service handler and the network terminal with one or two listeners of
its own. `PiVisionFrameCoord` waits for the camera, then provides the colour images and hands
the camera's frames on; without the camera it stops the program. `PiVisionGrayscaleImage` waits
for colour images and then provides those in black and white. There is a program with either of
the two, and one with both.

What the listeners raise is delivered like everything else, in any order. The frames that
`PiVisionGrayscaleImage` is handed are kept here; what it does with them is told by the number of
its jobs.
-/

namespace PiVision

open Machine

/-- `PIVISION_CAMERA_SERVICE_RX`. -/
def cameraService : ℕ := 3070

/-- `PIVISION_COLOR_IMAGE_SERVICE_RX`. -/
def colorImageService : ℕ := 3390

/-- `PIVISION_BW_IMAGE_SERVICE_RX`. -/
def bwImageService : ℕ := 3380

/-- The programs, by the directories of their `main`. -/
inductive Program
  | bw
  | color
  | full
  deriving DecidableEq, Repr

def Program.hasFrameCoord : Program → Bool
  | bw => false
  | color | full => true

def Program.hasGrayscaleImage : Program → Bool
  | color => false
  | bw | full => true

/-- The events besides those about services: data from the other end of a connection, raised
under the number of its service, `PIVISION_COLOR_IMAGE_SERVICE_TX`, `PIVISION_EVENT_STOP`, and
`FRAMECOORD_SHUTDOWN_TIMEOUT`. -/
inductive ApplicationEvent
  | newDataInd (serviceNo : ℕ) (data : List UInt8)
  | colorImageServiceTx (data : List UInt8)
  | stop
  | shutdownTimeout
  deriving DecidableEq, Repr

/-- `PiVisionFrameCoord`. -/
structure FrameCoord where
  currFrame : UInt32
  cameraServiceAvailable : Bool

namespace FrameCoord

/-- Its `HandleEvent` for the events about services: what it raises. -/
def handleServiceEvent (s : FrameCoord) :
    ServiceEvent → FrameCoord × List ServiceEvent × List ApplicationEvent
  | .serviceUnavailableInd n => if n = cameraService then (s, [], [.stop]) else (s, [], [])
  | .serviceAvailableInd n =>
    if n = cameraService then
      ({ s with cameraServiceAvailable := true }, [.serviceProvidedInd colorImageService], [])
    else (s, [], [])
  | _ => (s, [], [])

/-- Its `HandleEvent` for the others, and whether it calls `NotifyExecutionFinished`. -/
def handleApplicationEvent (s : FrameCoord) :
    ApplicationEvent → FrameCoord × List ApplicationEvent × Bool
  | .newDataInd n data =>
    if n = cameraService then
      ({ s with currFrame := s.currFrame + 1 }, [.colorImageServiceTx data], false)
    else (s, [], false)
  | .stop => (s, [.shutdownTimeout], false)
  | .shutdownTimeout => (s, [], true)
  | .colorImageServiceTx _ => (s, [], false)

/-- The frame coordinator provides the colour images when the camera is there. -/
theorem raises {s : FrameCoord} {e x : ServiceEvent}
    (hmem : x ∈ (s.handleServiceEvent e).2.1) :
    e = .serviceAvailableInd cameraService ∧ x = .serviceProvidedInd colorImageService := by
  cases e with
  | serviceAvailableInd n =>
    simp only [handleServiceEvent] at hmem
    split at hmem
    · rename_i hn
      exact ⟨by rw [hn], List.mem_singleton.mp hmem⟩
    · cases hmem
  | serviceUnavailableInd n =>
    simp only [handleServiceEvent] at hmem
    split at hmem <;> cases hmem
  | _ => cases hmem

/-- It stops the program when the camera is not, or no longer, there. -/
theorem raises_stop {s : FrameCoord} {e : ServiceEvent} {x : ApplicationEvent}
    (hmem : x ∈ (s.handleServiceEvent e).2.2) :
    e = .serviceUnavailableInd cameraService ∧ x = .stop := by
  cases e with
  | serviceAvailableInd n =>
    simp only [handleServiceEvent] at hmem
    split at hmem <;> cases hmem
  | serviceUnavailableInd n =>
    simp only [handleServiceEvent] at hmem
    split at hmem
    · rename_i hn
      exact ⟨by rw [hn], List.mem_singleton.mp hmem⟩
    · cases hmem
  | _ => cases hmem

end FrameCoord

/-- `PiVisionGrayscaleImage`: whether it has subscribed to the colour images, and those it has
been handed. -/
structure PiVisionGrayscaleImage where
  subscribed : Bool
  frames : List (List UInt8)

namespace PiVisionGrayscaleImage

def handleServiceEvent (s : PiVisionGrayscaleImage) :
    ServiceEvent → PiVisionGrayscaleImage × List ServiceEvent
  | .serviceAvailableInd n =>
    if n = colorImageService then
      ({ s with subscribed := true }, [.serviceProvidedInd bwImageService])
    else (s, [])
  | _ => (s, [])

def handleApplicationEvent (s : PiVisionGrayscaleImage) :
    ApplicationEvent → PiVisionGrayscaleImage
  | .newDataInd n data =>
    if n = colorImageService ∧ s.subscribed then { s with frames := s.frames ++ [data] } else s
  | _ => s

/-- `PiVisionGrayscaleImage` provides its images when there are colour images. -/
theorem raises {s : PiVisionGrayscaleImage} {e x : ServiceEvent}
    (hmem : x ∈ (s.handleServiceEvent e).2) :
    e = .serviceAvailableInd colorImageService ∧ x = .serviceProvidedInd bwImageService := by
  cases e with
  | serviceAvailableInd n =>
    simp only [handleServiceEvent] at hmem
    split at hmem
    · rename_i hn
      exact ⟨by rw [hn], List.mem_singleton.mp hmem⟩
    · cases hmem
  | _ => cases hmem

end PiVisionGrayscaleImage

/-- Events that the application raises, one after the other. -/
def Terminal.raiseAll (t : Terminal) (events : List ServiceEvent) : Terminal :=
  events.foldl (fun t e => t.raise e .application) t

/-- A program: the terminal with the handler, the listeners, the other events in flight, how
often `NotifyExecutionFinished` has been called, and the services that a lookup has connected
to. -/
structure Application where
  terminal : Terminal
  frameCoord : Option FrameCoord
  grayscaleImage : Option PiVisionGrayscaleImage
  inFlight : List ApplicationEvent
  executionFinished : ℕ
  connected : List ℕ

/-- What can happen: a delivery of an event about services or of another one, a step of a job of
the terminal, or data for a connection. -/
inductive ApplicationAction
  | deliver (i : ℕ)
  | deliverApplication (i : ℕ)
  | lookUp (i : ℕ) (answered : ℕ → Bool) (connectToServer : Int32)
  | accept (i : ℕ) (clientSocket : Int32)
  | endExecute (i : ℕ)
  | receive (i : ℕ) (data : List UInt8)

namespace Application

/-- What the constructors of the listeners raise. -/
def subscriptions (p : Program) : List ServiceEvent :=
  (if p.hasFrameCoord then [.subscribeServiceInd cameraService] else []) ++
    if p.hasGrayscaleImage then [.subscribeServiceInd colorImageService] else []

/-- The objects of `main` just constructed. -/
def start (p : Program) : Application where
  terminal := Terminal.start.raiseAll (subscriptions p)
  frameCoord := if p.hasFrameCoord then some ⟨0, false⟩ else none
  grayscaleImage := if p.hasGrayscaleImage then some ⟨false, []⟩ else none
  inFlight := []
  executionFinished := 0
  connected := []

/-- What the listeners raise for an event about services. -/
def raisedServices (a : Application) (e : ServiceEvent) : List ServiceEvent :=
  ((a.frameCoord.map fun s => (s.handleServiceEvent e).2.1).getD []) ++
    (a.grayscaleImage.map fun s => (s.handleServiceEvent e).2).getD []

def raisedEvents (a : Application) (e : ServiceEvent) : List ApplicationEvent :=
  (a.frameCoord.map fun s => (s.handleServiceEvent e).2.2).getD []

/-- The listeners' part of a delivery of an event about services. -/
def handleServiceEvent (a : Application) (e : ServiceEvent) : Application :=
  { a with
    terminal := a.terminal.raiseAll (a.raisedServices e)
    frameCoord := a.frameCoord.map fun s => (s.handleServiceEvent e).1
    grayscaleImage := a.grayscaleImage.map fun s => (s.handleServiceEvent e).1
    inFlight := a.inFlight ++ a.raisedEvents e }

/-- The delivery of another event. -/
def deliverApplication (a : Application) (e : ApplicationEvent) (rest : List ApplicationEvent) :
    Application :=
  { a with
    frameCoord := a.frameCoord.map fun s => (s.handleApplicationEvent e).1
    grayscaleImage := a.grayscaleImage.map fun s => s.handleApplicationEvent e
    inFlight := rest ++ (a.frameCoord.map fun s => (s.handleApplicationEvent e).2.1).getD []
    executionFinished := a.executionFinished +
      if (a.frameCoord.map fun s => (s.handleApplicationEvent e).2.2).getD false then 1 else 0 }

/-- A step. -/
def step (a : Application) : ApplicationAction → Application
  | .deliver i =>
    match a.terminal.inFlight[i]? with
    | some signal =>
      handleServiceEvent { a with terminal := a.terminal.step (.deliver i) } signal.event
    | none => a
  | .deliverApplication i =>
    match a.inFlight[i]? with
    | some e => a.deliverApplication e (a.inFlight.eraseIdx i)
    | none => a
  | .lookUp i answered connectToServer =>
    match a.terminal.jobs[i]? with
    | some (.connectService n) =>
      { a with
        terminal := a.terminal.step (.lookUp i answered connectToServer)
        connected :=
          if (EthTermConnectService.outcome answered connectToServer).1 = .connected then
            a.connected ++ [n]
          else a.connected }
    | _ => a
  | .accept i clientSocket => { a with terminal := a.terminal.step (.accept i clientSocket) }
  | .endExecute i => { a with terminal := a.terminal.step (.endExecute i) }
  | .receive i data =>
    match a.terminal.jobs[i]? with
    | some (.connection c) => { a with inFlight := a.inFlight ++ [.newDataInd c.serviceNo data] }
    | _ => a

/-! ## The terminal of a program -/

section Terminal

variable {t : Terminal} {events : List ServiceEvent}

theorem raiseAll_cons (t : Terminal) (e : ServiceEvent) (events : List ServiceEvent) :
    t.raiseAll (e :: events) = (t.raise e .application).raiseAll events := rfl

/-- Raising adds to what is in flight, and does nothing else. -/
theorem raiseAll_eq (t : Terminal) (events : List ServiceEvent) :
    t.raiseAll events =
      { t with inFlight := t.inFlight ++ events.map fun e => ⟨e, .application⟩ } := by
  induction events generalizing t with
  | nil => simp [Terminal.raiseAll]
  | cons e events ih => rw [raiseAll_cons, ih]; simp [Terminal.raise]

/-- Subscriptions and provisions are what an application can raise. -/
def FromApplication (e : ServiceEvent) : Prop :=
  ∃ n, e = .subscribeServiceInd n ∨ e = .serviceProvidedInd n

/-- What the application raises are steps of the terminal. -/
theorem exists_raise_steps (t : Terminal) (from_application : ∀ e ∈ events, FromApplication e) :
    ∃ actions, t.raiseAll events = run Terminal.step t actions := by
  induction events generalizing t with
  | nil => exact ⟨[], rfl⟩
  | cons e events ih =>
    obtain ⟨actions, hactions⟩ :=
      ih (t.raise e .application) fun e' mem => from_application e' (List.mem_cons_of_mem _ mem)
    rw [raiseAll_cons, hactions]
    obtain ⟨n, rfl | rfl⟩ := from_application e List.mem_cons_self
    · exact ⟨.subscribe n :: actions, rfl⟩
    · exact ⟨.provide n :: actions, rfl⟩

variable {a : Application}

theorem mem_getD_nil {α : Type*} {o : Option (List α)} {x : α} :
    x ∈ o.getD [] ↔ ∃ xs, o = some xs ∧ x ∈ xs := by
  cases o <;> simp

/-- What the listeners raise, case by case. -/
theorem raisedServices_cases {e x : ServiceEvent} (hmem : x ∈ a.raisedServices e) :
    (e = .serviceAvailableInd cameraService ∧ x = .serviceProvidedInd colorImageService ∧
      a.frameCoord.isSome = true) ∨
    (e = .serviceAvailableInd colorImageService ∧ x = .serviceProvidedInd bwImageService ∧
      a.grayscaleImage.isSome = true) := by
  rcases List.mem_append.mp hmem with hframe | hgray
  · obtain ⟨xs, hxs, hx⟩ := mem_getD_nil.mp hframe
    obtain ⟨s, hs, rfl⟩ := Option.map_eq_some_iff.mp hxs
    obtain ⟨he, hx⟩ := FrameCoord.raises hx
    exact .inl ⟨he, hx, by rw [hs]; rfl⟩
  · obtain ⟨xs, hxs, hx⟩ := mem_getD_nil.mp hgray
    obtain ⟨s, hs, rfl⟩ := Option.map_eq_some_iff.mp hxs
    obtain ⟨he, hx⟩ := PiVisionGrayscaleImage.raises hx
    exact .inr ⟨he, hx, by rw [hs]; rfl⟩

theorem raisedServices_fromApplication (a : Application) (e : ServiceEvent) :
    ∀ x ∈ a.raisedServices e, FromApplication x := by
  intro x hmem
  rcases raisedServices_cases hmem with ⟨-, rfl, -⟩ | ⟨-, rfl, -⟩
  · exact ⟨_, .inr rfl⟩
  · exact ⟨_, .inr rfl⟩

/-- A step of a program takes its terminal through steps of its own. -/
theorem exists_terminal_steps (a : Application) (action : ApplicationAction) :
    ∃ actions, (a.step action).terminal = run Terminal.step a.terminal actions := by
  cases action with
  | deliver i =>
    simp only [step]
    split
    · rename_i signal hsent
      obtain ⟨actions, hactions⟩ := exists_raise_steps (a.terminal.step (.deliver i))
        (raisedServices_fromApplication a signal.event)
      exact ⟨.deliver i :: actions, hactions⟩
    · exact ⟨[], rfl⟩
  | deliverApplication i =>
    simp only [step]
    split <;> exact ⟨[], rfl⟩
  | lookUp i answered connectToServer =>
    simp only [step]
    split
    · exact ⟨[.lookUp i answered connectToServer], rfl⟩
    · exact ⟨[], rfl⟩
  | accept i clientSocket => exact ⟨[.accept i clientSocket], rfl⟩
  | endExecute i => exact ⟨[.endExecute i], rfl⟩
  | receive i data =>
    simp only [step]
    split <;> exact ⟨[], rfl⟩

/-- The constructors raise subscriptions. -/
theorem eq_subscribe_of_mem {p : Program} {e : ServiceEvent} (hmem : e ∈ subscriptions p) :
    ∃ n, e = .subscribeServiceInd n := by
  cases p <;> simp [subscriptions, Program.hasFrameCoord, Program.hasGrayscaleImage] at hmem
  · exact ⟨_, hmem⟩
  · exact ⟨_, hmem⟩
  · rcases hmem with h | h <;> exact ⟨_, h⟩

/-- A delivery takes place in the terminal, and then in the listeners. -/
theorem step_deliver {i : ℕ} {signal : Signal} (sent : a.terminal.inFlight[i]? = some signal) :
    a.step (.deliver i) = handleServiceEvent
      { a with terminal := a.terminal.deliver signal (a.terminal.inFlight.eraseIdx i) }
      signal.event := by
  simp only [step, sent, Terminal.step]

/-- The terminal of a program goes through a run of the terminal, in which the listeners are
the application: what holds over all of those runs holds in the program. -/
theorem exists_terminal_run (p : Program) (actions : List ApplicationAction) :
    ∃ before, (run step (start p) actions).terminal = Terminal.runFrom before := by
  have hpreserved (a : Application) (action : ApplicationAction)
      (reached : ∃ before, a.terminal = Terminal.runFrom before) :
      ∃ before, (a.step action).terminal = Terminal.runFrom before := by
    obtain ⟨before, hbefore⟩ := reached
    obtain ⟨next, hnext⟩ := exists_terminal_steps a action
    refine ⟨before ++ next, ?_⟩
    rw [hnext, hbefore, Terminal.runFrom, Terminal.runFrom, run_append]
  have hsubscriptions : ∀ e ∈ subscriptions p, FromApplication e := fun e hmem =>
    (eq_subscribe_of_mem hmem).imp fun _ h => .inl h
  exact run_invariant step hpreserved (exists_raise_steps Terminal.start hsubscriptions) actions

/-- **The service handler of a program** has had an outcome for every event, has asked at most
once for a connection to a service, and has an entry for each service that a confirmation is on
its way for. -/
theorem handler_run (p : Program) (actions : List ApplicationAction) :
    ∃ h, (run step (start p) actions).terminal.service.state = some h ∧ ∀ n,
      (raised (run step (start p) actions).terminal.service.log).count
          (.connectToServiceReq n) ≤ 1 ∧
        ∀ signal ∈ (run step (start p) actions).terminal.inFlight, ∀ serviceId,
          signal.event = .connectToServiceCfm n serviceId → h.services n ≠ none := by
  obtain ⟨before, hterminal⟩ := exists_terminal_run p actions
  rw [hterminal]
  have inv := Terminal.requested_run before
  obtain ⟨h, hlive⟩ := Option.ne_none_iff_exists'.mp inv.live
  refine ⟨h, hlive, fun n => ⟨(inv.once n h hlive).1, fun signal hmem serviceId hevent => ?_⟩⟩
  exact inv.entry hlive hmem (by rw [hevent]; rfl)

end Terminal

end Application

end PiVision
