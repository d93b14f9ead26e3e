import PiVision.Clients.Alignment
import PiVision.Clients.PythonStream
import PiVision.EthTerm.AckToken

/-!
# Stop and wait with the other clients

A server-side connection and a client that is not a connection itself, on two byte streams.
The server takes every ack for one of its data, while the Java client also acknowledges
heartbeats and timeouts and the Python client every frame. So data is held back until the
data before it has been read as long as no ack is taken while data is under way.

What the client does with the streams is a parameter: it takes bytes off the one and puts
bytes on the other. How far the streams have been written and read, and where the last data
ends, is kept beside the two ends.
-/

namespace PiVision

open Machine LittleEndian Framing EthTermConnection

/-- A client as a machine on two streams: in a step it takes so many bytes from the front of
what the server has written, and sends some. -/
structure StreamClient (γ : Type) where
  State : Type
  init : State
  step : State → γ → List UInt8 → State × ℕ × List UInt8

/-- The Java client. -/
def JavaClient.streamClient : StreamClient JavaAction where
  State := JavaClient
  init := .init
  step c action wire :=
    if c.state = .connected then
      match action with
      | .read extra =>
        let chunk := wire.take (min c.missing (extra + 1))
        (c.receive chunk, chunk.length, [])
      | .timeout => (c.timeout, 0, [])
      | .endOfStream => (c.endOfStream, 0, [])
      | .acknowledge => (c.acknowledge.1, 0, c.acknowledge.2)
    else (c, 0, [])

/-- The Python client. -/
def PythonClient.streamClient : StreamClient ℕ where
  State := PythonClient
  init := .init
  step c extra wire :=
    if c.point = .ack then (c.sendAck.1, 0, c.sendAck.2)
    else if wire = [] then (c, 0, [])
    else
      let packet := wire.take (min c.missing (extra + 1))
      (c.receive packet, packet.length, [])

/-- The server's end, the client, and the bytes on their way. `written` and `read` count the
bytes of the server's stream, and `dataEnd` is where the last data frame on it ends. -/
structure ServedClient {γ : Type} (client : StreamClient γ) where
  server : LinkEnd
  toClient : List UInt8
  state : client.State
  toServer : List UInt8
  written : ℕ
  read : ℕ
  dataEnd : ℕ

/-- A step of the server's end or of the client. -/
inductive ServedAction (γ : Type)
  | server (input : LinkInput)
  | client (action : γ)

namespace ServedClient

variable {γ : Type} {client : StreamClient γ}

/-- A connection of the server's side just constructed, and the client just connected. -/
def start (client : StreamClient γ) (serviceNo : ℕ) (socketFd : ℤ) (ownPid : ℕ) :
    ServedClient client :=
  ⟨.new .server serviceNo socketFd ownPid, [], client.init, [], 0, 0, 0⟩

/-- The handler thread is about to lock `sendMutex` for data. -/
def beginsData (s : ServedClient client) : Bool :=
  match s.server.handler, s.server.sendMutex with
  | .dataCleared _, none => true
  | _, _ => false

/-- A step of the server's end. -/
def serverStep (s : ServedClient client) : LinkInput → ServedClient client
  | .dataEvent connType data => { s with server := s.server.dataEvent connType data }
  | .heartbeatTimeout id => { s with server := s.server.heartbeatTimeout id }
  | .stopEvent => { s with server := s.server.stopEvent }
  | .handlerStep =>
    { s with
      server := s.server.handlerStep
      -- all frames before this one have been written
      dataEnd := if s.beginsData then s.written + s.server.handlerStep.unsent.length
        else s.dataEnd }
  | .executeStep => { s with server := s.server.executeStep }
  | .sendChunk k =>
    { s with
      server := s.server.accepted k
      toClient := s.toClient ++ s.server.departing k
      written := s.written + (s.server.departing k).length }
  | .recvChunk k =>
    { s with
      server := s.server.collect (s.server.arriving s.toServer k)
      toServer := s.toServer.drop (s.server.arriving s.toServer k).length }

/-- A step of the client. -/
def clientStep (s : ServedClient client) (action : γ) : ServedClient client :=
  let (state, taken, sent) := client.step s.state action s.toClient
  { s with
    toClient := s.toClient.drop taken
    state := state
    toServer := s.toServer ++ sent
    read := s.read + min taken s.toClient.length }

def step (s : ServedClient client) : ServedAction γ → ServedClient client
  | .server input => s.serverStep input
  | .client action => s.clientStep action

/-! ## The law -/

/-- Data of the server is under way: `receivedAck` has been cleared for it and it has not
been sent, or it has been sent and the client has not read all of it. -/
def DataUnderWay (s : ServedClient client) : Prop :=
  s.server.handler.isCleared = true ∨ s.read < s.dataEnd

/-- A data frame is begun only when the client has read all of the one before it. -/
def ReadBeforeSent (s : ServedClient client) (action : ServedAction γ) : Prop :=
  action = .server .handlerStep → s.beginsData = true → s.dataEnd ≤ s.read

/-- The server has permission to send only with no data under way. -/
def Permission (s : ServedClient client) : Prop :=
  s.server.conn.receivedAck = true → ¬s.DataUnderWay

/-- `Execute` is about to deal with an ack. -/
def takesAck (s : ServedClient client) : Bool :=
  match s.server.exec with
  | .received payload => decide (kindOf payload = .ack)
  | _ => false

/-- An ack is taken only with no data under way. -/
def AckTimely (s : ServedClient client) (action : ServedAction γ) : Prop :=
  action = .server .executeStep → s.takesAck = true → ¬s.DataUnderWay

/-- What holds between two steps, as long as acks are timely. -/
structure Inv (s : ServedClient client) : Prop where
  ackEnabled : s.server.conn.ackEnabled = true
  permission : s.Permission
  checked : s.server.handler.isChecked = true → s.server.conn.receivedAck = true
  cleared : s.server.handler.isCleared = true → s.dataEnd ≤ s.read

theorem inv_start (client : StreamClient γ) (serviceNo : ℕ) (socketFd : ℤ) (ownPid : ℕ) :
    (start client serviceNo socketFd ownPid).Inv where
  ackEnabled := rfl
  permission _ h := h.elim (fun h => nomatch h) (Nat.lt_irrefl 0)
  checked h := nomatch h
  cleared h := nomatch h

/-! ## The steps -/

section Steps

variable {s : ServedClient client}

/-- A step that leaves the flags, the handler thread and the end of the data alone. -/
theorem Inv.of_same {s' : ServedClient client} (inv : s.Inv)
    (enabled : s'.server.conn.ackEnabled = s.server.conn.ackEnabled)
    (received : s'.server.conn.receivedAck = s.server.conn.receivedAck)
    (handler : s'.server.handler = s.server.handler) (dataEnd : s'.dataEnd = s.dataEnd)
    (read : s.read ≤ s'.read) : s'.Inv where
  ackEnabled := enabled.trans inv.ackEnabled
  permission hreceived hunder := by
    refine inv.permission (received ▸ hreceived) ?_
    rcases hunder with hcleared | hunread
    · exact .inl (handler ▸ hcleared)
    · exact .inr (by omega)
  checked hchecked := by
    rw [received]
    exact inv.checked (handler ▸ hchecked)
  cleared hcleared := by
    have hread := inv.cleared (handler ▸ hcleared)
    omega

/-- A step of the handler thread that does nothing with data. -/
theorem Inv.of_handler {s' : ServedClient client} (inv : s.Inv)
    (enabled : s'.server.conn.ackEnabled = s.server.conn.ackEnabled)
    (received : s'.server.conn.receivedAck = s.server.conn.receivedAck)
    (notChecked : s'.server.handler.isChecked = false)
    (notCleared : s'.server.handler.isCleared = false) (dataEnd : s'.dataEnd = s.dataEnd)
    (read : s'.read = s.read) : s'.Inv where
  ackEnabled := enabled.trans inv.ackEnabled
  permission hreceived hunder := by
    refine inv.permission (received ▸ hreceived) ?_
    rcases hunder with hcleared | hunread
    · rw [notCleared] at hcleared
      cases hcleared
    · exact .inr (by omega)
  checked hchecked := by
    rw [notChecked] at hchecked
    cases hchecked
  cleared hcleared := by
    rw [notCleared] at hcleared
    cases hcleared

theorem inv_clientStep (inv : s.Inv) (action : γ) : (s.clientStep action).Inv :=
  inv.of_same rfl rfl rfl rfl (Nat.le_add_right _ _)

theorem inv_dataEvent (inv : s.Inv) (connType : ConnectionType) (data : DataPayload) :
    (s.serverStep (.dataEvent connType data)).Inv := by
  simp only [serverStep, LinkEnd.dataEvent]
  split
  swap
  · exact inv.of_same rfl rfl rfl rfl (Nat.le_refl _)
  rename_i hidle
  split
  swap
  · exact inv.of_same rfl rfl rfl rfl (Nat.le_refl _)
  rename_i hguard
  split
  swap
  · exact inv.of_same rfl rfl rfl rfl (Nat.le_refl _)
  split
  swap
  · exact inv.of_same rfl rfl rfl rfl (Nat.le_refl _)
  rename_i hother
  -- the guard has found `receivedAck`, as acks are enabled and the peer is elsewhere
  have hreceived : s.server.conn.receivedAck = true := by
    rw [Bool.not_eq_true'] at hother
    simpa [inv.ackEnabled, hother] using hguard
  refine ⟨inv.ackEnabled, fun _ hunder => ?_, fun _ => hreceived, fun hcleared => ?_⟩
  · refine inv.permission hreceived ?_
    rcases hunder with hcleared | hunread
    · cases hcleared
    · exact .inr hunread
  · cases hcleared

theorem inv_heartbeatTimeout (inv : s.Inv) (id : ℤ) :
    (s.serverStep (.heartbeatTimeout id)).Inv := by
  simp only [serverStep, LinkEnd.heartbeatTimeout]
  split
  swap
  · exact inv.of_same rfl rfl rfl rfl (Nat.le_refl _)
  split
  swap
  · exact inv.of_same rfl rfl rfl rfl (Nat.le_refl _)
  split
  swap
  · exact inv.of_same rfl rfl rfl rfl (Nat.le_refl _)
  split <;> exact inv.of_handler rfl rfl rfl rfl rfl rfl

theorem inv_stopEvent (inv : s.Inv) : (s.serverStep .stopEvent).Inv := by
  simp only [serverStep, LinkEnd.stopEvent]
  split <;> exact inv.of_same rfl rfl rfl rfl (Nat.le_refl _)

/-- The handler thread's own steps. With `receivedAck` cleared for data that has not been
sent the flag is not set, so the data goes out without permission to send more. -/
theorem inv_handlerStep (inv : s.Inv) : (s.serverStep .handlerStep).Inv := by
  cases hhandler : s.server.handler with
  | idle =>
    have hbegins : s.beginsData = false := by simp [beginsData, hhandler]
    simp only [serverStep, hbegins, LinkEnd.handlerStep, hhandler]
    exact inv.of_same rfl rfl rfl rfl (Nat.le_refl _)
  | dataChecked data =>
    have hbegins : s.beginsData = false := by simp [beginsData, hhandler]
    have hread : ¬s.read < s.dataEnd := fun h =>
      inv.permission (inv.checked (by rw [hhandler]; rfl)) (.inr h)
    simp only [serverStep, hbegins, LinkEnd.handlerStep, hhandler]
    exact ⟨inv.ackEnabled, nofun, nofun, fun _ => Nat.not_lt.mp hread⟩
  | dataCleared data =>
    have hnot : ¬s.server.conn.receivedAck = true := fun h =>
      inv.permission h (.inl (by rw [hhandler]; rfl))
    simp only [serverStep, LinkEnd.handlerStep, hhandler, LinkEnd.lock]
    cases hmutex : s.server.sendMutex with
    | none => exact ⟨inv.ackEnabled, fun h => absurd h hnot, nofun, nofun⟩
    | some holder =>
      have hbegins : s.beginsData = false := by simp [beginsData, hhandler, hmutex]
      rw [hbegins]
      exact inv.of_same rfl rfl rfl rfl (Nat.le_refl _)
  | sendingData | sendingPid | sendingHeartbeat =>
    have hbegins : s.beginsData = false := by simp [beginsData, hhandler]
    simp only [serverStep, hbegins, LinkEnd.handlerStep, hhandler, LinkEnd.unlock]
    split
    · exact inv.of_handler rfl rfl rfl rfl rfl rfl
    · exact inv.of_same rfl rfl rfl rfl (Nat.le_refl _)
  | pidDue | heartbeatDue =>
    have hbegins : s.beginsData = false := by simp [beginsData, hhandler]
    simp only [serverStep, hbegins, LinkEnd.handlerStep, hhandler, LinkEnd.lock]
    split
    · exact inv.of_handler rfl rfl rfl rfl rfl rfl
    · exact inv.of_same rfl rfl rfl rfl (Nat.le_refl _)

/-- A payload that is no ack leaves the exchange alone. -/
theorem dispatch_of_other {e : LinkEnd} {payload : List UInt8} (other : kindOf payload ≠ .ack) :
    (e.dispatch payload).conn.ackEnabled = e.conn.ackEnabled ∧
      (e.dispatch payload).conn.receivedAck = e.conn.receivedAck ∧
      (e.dispatch payload).handler = e.handler := by
  simp only [kindOf] at other
  simp only [LinkEnd.dispatch]
  cases hkind : classify payload.length (.ofBytes payload) with
  | ack => simp [hkind] at other
  | data | pid | heartbeat | empty => exact ⟨rfl, rfl, rfl⟩

theorem dispatch_of_ack {e : LinkEnd} {payload : List UInt8} (ack : kindOf payload = .ack) :
    e.dispatch payload = { e with
      conn := { e.conn with receivedAck := true, ackEnabled := true }, exec := .atLoop } := by
  simp only [kindOf] at ack
  simp only [LinkEnd.dispatch]
  cases hkind : classify payload.length (.ofBytes payload) with
  | ack => rfl
  | data | pid | heartbeat | empty => simp [hkind] at ack

/-- The other thread's own steps, the taking of an ack apart. -/
theorem inv_executeStep_of_other (inv : s.Inv) (other : s.takesAck = false) :
    (s.serverStep .executeStep).Inv := by
  have hsame : (s.server.executeStep).conn.ackEnabled = s.server.conn.ackEnabled ∧
      (s.server.executeStep).conn.receivedAck = s.server.conn.receivedAck ∧
      (s.server.executeStep).handler = s.server.handler := by
    cases hexec : s.server.exec with
    | received payload =>
      simp only [LinkEnd.executeStep, hexec]
      exact dispatch_of_other (by simpa [takesAck, hexec] using other)
    | atLoop | readingHeader got | readingPayload header got =>
      simp only [LinkEnd.executeStep, hexec]
      split <;> exact ⟨rfl, rfl, rfl⟩
    | ackDue =>
      simp only [LinkEnd.executeStep, hexec, LinkEnd.lock]
      split <;> exact ⟨rfl, rfl, rfl⟩
    | sendingAck =>
      simp only [LinkEnd.executeStep, hexec, LinkEnd.unlock]
      split <;> exact ⟨rfl, rfl, rfl⟩
    | finished =>
      have hstay : s.server.executeStep = s.server := by simp only [LinkEnd.executeStep, hexec]
      rw [hstay]
      exact ⟨rfl, rfl, rfl⟩
  exact inv.of_same hsame.1 hsame.2.1 hsame.2.2 rfl (Nat.le_refl _)

/-- The taking of an ack gives permission to send. -/
theorem executeStep_of_ack (takes : s.takesAck = true) :
    ∃ payload, s.server.exec = .received payload ∧ s.serverStep .executeStep = { s with
      server := { s.server with
        conn := { s.server.conn with receivedAck := true, ackEnabled := true }
        exec := .atLoop } } := by
  cases hexec : s.server.exec with
  | received payload =>
    have hack : kindOf payload = .ack := by simpa [takesAck, hexec] using takes
    refine ⟨payload, rfl, ?_⟩
    simp only [serverStep, LinkEnd.executeStep, hexec, dispatch_of_ack hack]
  | atLoop | readingHeader got | readingPayload header got | ackDue | sendingAck | finished =>
    simp [takesAck, hexec] at takes

theorem inv_sendChunk (inv : s.Inv) (k : ℕ) : (s.serverStep (.sendChunk k)).Inv :=
  inv.of_same rfl rfl rfl rfl (Nat.le_refl _)

theorem inv_recvChunk (inv : s.Inv) (k : ℕ) : (s.serverStep (.recvChunk k)).Inv := by
  simp only [serverStep, LinkEnd.collect]
  split <;> exact inv.of_same rfl rfl rfl rfl (Nat.le_refl _)

end Steps

/-- **One step** with a timely ack or none. -/
theorem inv_step (s : ServedClient client) (action : ServedAction γ) (inv : s.Inv)
    (timely : s.AckTimely action) : (s.step action).Inv := by
  cases action with
  | client action => exact inv_clientStep inv action
  | server input =>
    cases input with
    | dataEvent connType data => exact inv_dataEvent inv connType data
    | heartbeatTimeout id => exact inv_heartbeatTimeout inv id
    | stopEvent => exact inv_stopEvent inv
    | handlerStep => exact inv_handlerStep inv
    | sendChunk k => exact inv_sendChunk inv k
    | recvChunk k => exact inv_recvChunk inv k
    | executeStep =>
      cases htakes : s.takesAck with
      | false => exact inv_executeStep_of_other inv htakes
      | true =>
        obtain ⟨payload, -, hstep⟩ := executeStep_of_ack htakes
        have hunder := timely rfl htakes
        rw [step, hstep]
        exact ⟨rfl, fun _ => hunder, fun _ => rfl, inv.cleared⟩

/-- An ack that is not timely gives permission to send with data under way. -/
theorem ackTimely_of_permission (s : ServedClient client) (action : ServedAction γ)
    (permission : (s.step action).Permission) : s.AckTimely action := by
  rintro rfl htakes
  obtain ⟨payload, -, hstep⟩ := executeStep_of_ack htakes
  rw [step, hstep] at permission
  exact permission rfl

/-- In every run against the client, the server has permission to send only with no data
under way if and only if every ack is timely; and then no data is begun before the client
has read all of the data before it. -/
theorem stopAndWait_of_client (client : StreamClient γ) (serviceNo : ℕ) (socketFd : ℤ)
    (ownPid : ℕ) (actions : List (ServedAction γ)) :
    (Along step (fun s action => (s.step action).Permission)
        (start client serviceNo socketFd ownPid) actions ↔
      Along step AckTimely (start client serviceNo socketFd ownPid) actions) ∧
    (Along step AckTimely (start client serviceNo socketFd ownPid) actions →
      Along step ReadBeforeSent (start client serviceNo socketFd ownPid) actions) := by
  have hstart := inv_start client serviceNo socketFd ownPid
  refine ⟨?_, fun timely => ?_⟩
  · exact along_law_iff inv_step (fun s inv => inv.permission)
      (fun s action _ permission => ackTimely_of_permission s action permission) hstart actions
  · have hsame (s : ServedClient client) (action : ServedAction γ) (inv : s.Inv)
        (timely : s.AckTimely action) : s.AckTimely action ↔ s.ReadBeforeSent action := by
      refine iff_of_true timely (fun _ hbegins => inv.cleared ?_)
      cases hhandler : s.server.handler <;> simp [beginsData, hhandler] at hbegins
      rfl
    have hpreserved (s : ServedClient client) (action : ServedAction γ) (inv : s.Inv)
        (timely : s.AckTimely action) (_ : s.AckTimely action) : (s.step action).Inv :=
      inv_step s action inv timely
    exact (along_congr_along hsame hpreserved hstart timely).mp timely

/-- **Stop and wait with the Java and the Python client.** -/
theorem stopAndWait_iff_ackTimely (serviceNo : ℕ) (socketFd : ℤ) (ownPid : ℕ) :
    (∀ actions,
      (Along step (fun s action => (s.step action).Permission)
          (start JavaClient.streamClient serviceNo socketFd ownPid) actions ↔
        Along step AckTimely (start JavaClient.streamClient serviceNo socketFd ownPid) actions) ∧
      (Along step AckTimely (start JavaClient.streamClient serviceNo socketFd ownPid) actions →
        Along step ReadBeforeSent (start JavaClient.streamClient serviceNo socketFd ownPid)
          actions)) ∧
    (∀ actions,
      (Along step (fun s action => (s.step action).Permission)
          (start PythonClient.streamClient serviceNo socketFd ownPid) actions ↔
        Along step AckTimely (start PythonClient.streamClient serviceNo socketFd ownPid) actions) ∧
      (Along step AckTimely (start PythonClient.streamClient serviceNo socketFd ownPid) actions →
        Along step ReadBeforeSent (start PythonClient.streamClient serviceNo socketFd ownPid)
          actions)) :=
  ⟨stopAndWait_of_client JavaClient.streamClient serviceNo socketFd ownPid,
    stopAndWait_of_client PythonClient.streamClient serviceNo socketFd ownPid⟩

/-- A heartbeat goes out, the client acknowledges it while the server sends data, the server
takes the ack, and more data is accepted. -/
def staleAck (acknowledges : List (ServedAction γ)) : List (ServedAction γ) :=
  [.server (.heartbeatTimeout 4), .server .handlerStep, .server (.sendChunk 7),
    .server .handlerStep, .server (.dataEvent .server ⟨[1], by decide, by decide⟩),
    .server .handlerStep, .server .handlerStep, .server (.sendChunk 4), .server .handlerStep] ++
  acknowledges ++
  [.server .executeStep, .server (.recvChunk 3), .server .executeStep, .server (.recvChunk 4),
    .server .executeStep, .server .executeStep,
    .server (.dataEvent .server ⟨[2], by decide, by decide⟩), .server .handlerStep]

/-- The client has read the heartbeat and nothing of the first data when the second is
begun. -/
theorem readBeforeSent_broken :
    ¬Along step ReadBeforeSent (start JavaClient.streamClient 7 4 1)
        (staleAck [.client (.read 3), .client (.read 3), .client .acknowledge] ++
          [.server .handlerStep]) ∧
      ¬Along step ReadBeforeSent (start PythonClient.streamClient 7 4 1)
        (staleAck [.client 3, .client 3, .client 0] ++ [.server .handlerStep]) := by
  constructor
  · intro along
    have hread := (along_iff_forall_split _ _).mp along _ _ [] rfl rfl (by decide +kernel)
    revert hread
    decide +kernel
  · intro along
    have hread := (along_iff_forall_split _ _).mp along _ _ [] rfl rfl (by decide +kernel)
    revert hread
    decide +kernel

end ServedClient

end PiVision
