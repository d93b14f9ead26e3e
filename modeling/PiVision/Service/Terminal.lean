import PiVision.EthTerm.Connection
import PiVision.Service.Subscribers

/-!
# The service handler and the network terminal

`PiVisionEthTerm` turns the handler's requests into jobs, and what the jobs report into
the answers that the handler waits for. A job looks a service up, listens for the
consumers of a local one, or runs a connection, and the last thing a lookup or a
connection does is to report its status.

The dispatcher is not part of this repository. It delivers each event that has been
raised once, in any order, and it runs the jobs it is given, so a run of the system is
a list of deliveries and of job steps. Each event in flight carries what it goes back
to, which the code does not keep.
-/

namespace PiVision

open Machine

/-! ## The lookup of a service -/

namespace EthTermConnectService

/-- The loop of `Execute`: at most so many calls of `FindService`, up to the first that
is answered. The outcome is `serviceFound`. -/
def findWithin : ℕ → (ℕ → Bool) → Bool
  | 0, _ => false
  | attempts + 1, answered =>
    if answered 0 then true else findWithin attempts fun i => answered (i + 1)

/-- `maxNumAttempts`. -/
def maxNumAttempts : ℕ := 5

/-- What `Execute` ends with, for the attempts that a server answers and what
`ConnectToServer` returns: a status and a socket. -/
def outcome (answered : ℕ → Bool) (connectToServer : Int32) : ServiceStatus × Int32 :=
  if findWithin maxNumAttempts answered then
    if connectToServer ≠ -1 then (.connected, connectToServer) else (.disconnected, -1)
  else (.notFound, -1)

/-- `Execute`: the status it raises. -/
def execute (serviceNo : ℕ) (answered : ℕ → Bool) (connectToServer : Int32) : ServiceEvent :=
  .serviceStatusInd (outcome answered connectToServer).1 serviceNo
    (outcome answered connectToServer).2

end EthTermConnectService

/-- The status that the end of `EthTermConnection::Execute` raises, on either side of the
service. -/
def EthTermConnection.statusAtEnd (c : EthTermConnection) : ServiceEvent :=
  .serviceStatusInd .disconnected c.serviceNo (-1)

/-! ## The terminal -/

/-- The jobs of the terminal. -/
inductive TerminalJob
  | connectService (serviceNo : ℕ)
  | serviceListener (serviceNo : ℕ)
  | connection (conn : EthTermConnection)
  deriving DecidableEq, Repr

namespace EthTerm

/-- `PiVisionEthTerm::HandleEvent`: the events it raises and the jobs it starts. -/
def handleEvent : ServiceEvent → List ServiceEvent × List TerminalJob
  | .provideServiceInd n => ([], [.serviceListener n])
  | .connectToServiceReq n => ([], [.connectService n])
  | .serviceStatusInd status n socketFd =>
    match status with
    | .disconnected | .notFound => ([.connectToServiceRej n], [])
    | .connected =>
      ([.connectToServiceCfm n socketFd.toUInt32], [.connection (.new .client n socketFd.toInt)])
  | _ => ([], [])

end EthTerm

/-- What an event in flight goes back to: something the application raised, a lookup with
the status it ended in, or the end of a connection. -/
inductive Origin
  | application
  | lookup (serviceNo : ℕ) (status : ServiceStatus)
  | connection (connType : ConnectionType) (serviceNo : ℕ)
  deriving DecidableEq, Repr

/-- An event in flight. -/
structure Signal where
  event : ServiceEvent
  origin : Origin
  deriving DecidableEq, Repr

/-- A service announced as unavailable: what the announcement goes back to, and the
entry of the service at that moment. -/
structure Announcement where
  serviceNo : ℕ
  origin : Origin
  entry : Option Int32
  deriving DecidableEq, Repr

/-- The system. `service` is the handler with the log of what it has handled. -/
structure Terminal where
  service : ServiceHandler.History
  inFlight : List Signal
  jobs : List TerminalJob
  announced : List Announcement

/-- What can happen. The index of a delivery is that of an event in flight, the index of
a job step that of a job. -/
inductive TerminalAction
  | subscribe (serviceNo : ℕ)
  | provide (serviceNo : ℕ)
  | deliver (i : ℕ)
  | lookUp (i : ℕ) (answered : ℕ → Bool) (connectToServer : Int32)
  | accept (i : ℕ) (clientSocket : Int32)
  | endExecute (i : ℕ)

namespace Terminal

/-- The handler and the terminal just constructed. -/
def start : Terminal := ⟨Recorded.start .new, [], [], []⟩

/-- What the handler raises for an event. -/
def raisedFor (service : ServiceHandler.History) (e : ServiceEvent) : List ServiceEvent :=
  (service.state.map fun h => h.raisedBy e).getD []

/-- The announcements among the events raised. -/
def announcements (service : ServiceHandler.History) (origin : Origin)
    (raised : List ServiceEvent) : List Announcement :=
  raised.filterMap fun
    | .serviceUnavailableInd n => some ⟨n, origin, service.state.bind fun h => h.services n⟩
    | _ => none

/-- The delivery of an event to its subscribers. An event that one of the two has not
subscribed to is one that its `HandleEvent` does nothing with. -/
def deliver (t : Terminal) (signal : Signal) (rest : List Signal) : Terminal where
  service := ServiceHandler.handleNext t.service signal.event
  inFlight := rest ++
    (raisedFor t.service signal.event ++ (EthTerm.handleEvent signal.event).1).map
      fun e => ⟨e, signal.origin⟩
  jobs := t.jobs ++ (EthTerm.handleEvent signal.event).2
  announced := t.announced ++
    announcements t.service signal.origin (raisedFor t.service signal.event)

def raise (t : Terminal) (e : ServiceEvent) (origin : Origin) : Terminal :=
  { t with inFlight := t.inFlight ++ [⟨e, origin⟩] }

/-- A step of the system. -/
def step (t : Terminal) : TerminalAction → Terminal
  | .subscribe n => t.raise (.subscribeServiceInd n) .application
  | .provide n => t.raise (.serviceProvidedInd n) .application
  | .deliver i =>
    match t.inFlight[i]? with
    | some signal => t.deliver signal (t.inFlight.eraseIdx i)
    | none => t
  | .lookUp i answered connectToServer =>
    match t.jobs[i]? with
    | some (.connectService n) =>
      { t with jobs := t.jobs.eraseIdx i }.raise
        (EthTermConnectService.execute n answered connectToServer)
        (.lookup n (EthTermConnectService.outcome answered connectToServer).1)
    | _ => t
  | .accept i clientSocket =>
    match t.jobs[i]? with
    | some (.serviceListener n) =>
      { t with jobs := t.jobs ++ [.connection (.new .server n clientSocket.toInt)] }
    | _ => t
  | .endExecute i =>
    match t.jobs[i]? with
    | some (.connection c) =>
      { t with jobs := t.jobs.eraseIdx i }.raise c.statusAtEnd (.connection c.connType c.serviceNo)
    | _ => t

/-- The state after the actions of a run. -/
def runFrom (actions : List TerminalAction) : Terminal := run step start actions

/-- What a step can be, one case a kind. -/
inductive Moves (t : Terminal) : TerminalAction → Terminal → Prop
  | subscribe {n : ℕ} : Moves t (.subscribe n) (t.raise (.subscribeServiceInd n) .application)
  | provide {n : ℕ} : Moves t (.provide n) (t.raise (.serviceProvidedInd n) .application)
  | deliver {i : ℕ} {signal : Signal} (sent : t.inFlight[i]? = some signal) :
    Moves t (.deliver i) (t.deliver signal (t.inFlight.eraseIdx i))
  | lookUp {i n : ℕ} {answered : ℕ → Bool} {connectToServer : Int32}
      (job : t.jobs[i]? = some (.connectService n)) :
    Moves t (.lookUp i answered connectToServer)
      ({ t with jobs := t.jobs.eraseIdx i }.raise
        (EthTermConnectService.execute n answered connectToServer)
        (.lookup n (EthTermConnectService.outcome answered connectToServer).1))
  | accept {i n : ℕ} {clientSocket : Int32} (job : t.jobs[i]? = some (.serviceListener n)) :
    Moves t (.accept i clientSocket)
      { t with jobs := t.jobs ++ [.connection (.new .server n clientSocket.toInt)] }
  | endExecute {i : ℕ} {c : EthTermConnection} (job : t.jobs[i]? = some (.connection c)) :
    Moves t (.endExecute i)
      ({ t with jobs := t.jobs.eraseIdx i }.raise c.statusAtEnd
        (.connection c.connType c.serviceNo))
  | idle {action : TerminalAction} : Moves t action t

theorem moves_step (t : Terminal) (action : TerminalAction) : Moves t action (t.step action) := by
  cases action with
  | subscribe n => exact .subscribe
  | provide n => exact .provide
  | deliver i =>
    simp only [step]
    split
    · exact .deliver ‹_›
    · exact .idle
  | lookUp i answered connectToServer =>
    simp only [step]
    split
    · exact .lookUp ‹_›
    · exact .idle
  | accept i clientSocket =>
    simp only [step]
    split
    · exact .accept ‹_›
    · exact .idle
  | endExecute i =>
    simp only [step]
    split
    · exact .endExecute ‹_›
    · exact .idle

/-! ## What a delivery does -/

variable {t : Terminal} {signal : Signal} {rest : List Signal}

/-- While the handler has an outcome for the event, it goes on from it. -/
theorem deliver_of_outcome {h h' : ServiceHandler} {out : List ServiceEvent}
    (live : t.service.state = some h) (outcome : h.handleEvent signal.event = some (h', out)) :
    (t.deliver signal rest).service = ⟨some h', t.service.log ++ [(signal.event, out)]⟩ ∧
      raisedFor t.service signal.event = out := by
  refine ⟨record_of_some live outcome, ?_⟩
  simp [raisedFor, live, ServiceHandler.raisedBy, outcome]

theorem mem_inFlight_deliver {x : Signal} :
    x ∈ (t.deliver signal rest).inFlight ↔ x ∈ rest ∨ x.origin = signal.origin ∧
      (x.event ∈ raisedFor t.service signal.event ∨
        x.event ∈ (EthTerm.handleEvent signal.event).1) := by
  simp only [deliver, List.mem_append, List.mem_map]
  refine or_congr_right ⟨?_, ?_⟩
  · rintro ⟨e, he, rfl⟩
    exact ⟨rfl, he⟩
  · rintro ⟨horigin, he⟩
    exact ⟨x.event, he, by rw [← horigin]⟩

theorem mem_inFlight_raise {x : Signal} {e : ServiceEvent} {origin : Origin} :
    x ∈ (t.raise e origin).inFlight ↔ x ∈ t.inFlight ∨ x = ⟨e, origin⟩ := by
  simp [raise]

/-- What the handler raises for an event is an outcome of its own. -/
theorem handles_of_mem_raisedFor {e x : ServiceEvent} (hmem : x ∈ raisedFor t.service e) :
    ∃ h h' out, t.service.state = some h ∧ ServiceHandler.Handles h e h' out ∧ x ∈ out := by
  cases hstate : t.service.state with
  | none => simp [raisedFor, hstate] at hmem
  | some h =>
    have hraised : x ∈ h.raisedBy e := by simpa [raisedFor, hstate] using hmem
    obtain ⟨h', out, step, hout⟩ := ServiceHandler.mem_raisedBy hraised
    exact ⟨h, h', out, rfl, step, hout⟩

end Terminal

end PiVision
