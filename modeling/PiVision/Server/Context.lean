import PiVision.Discovery.Requests
import PiVision.Lib.Run
import PiVision.Server.Transfer

/-!
# The context of a service

`SERVER_publishService` resets a context, `handleNewConnections` puts what `accept` returns
into `clientSocket` and sets `connected`, and no function of the server clears `connected` or
closes a descriptor. Requests for the service are looked at while `connected` is 0.

Which descriptors `accept` has returned, and whether the peer of the last one has been seen
to be gone, is kept beside the context. A call of `SERVER_send` that does not return is the
last thing that happens.
-/

namespace PiVision

open Machine ScriptLoop

/-- A context, the descriptors that have been accepted for it and not closed, whether the
peer of the last one has been observed closed or broken, and whether a send has not
returned. -/
structure ServerContext where
  servedPortNo : ℕ
  connected : Bool
  clientSocket : ℤ
  accepted : List ℤ
  gone : Bool
  blocked : Bool

/-- What can happen: the context is published again, a client waits when
`handleNewConnections` is called and `accept` returns this, data are sent with these answers
of `send`, or `SERVER_receive` is called, in which `recv` returns `-1`, or so many bytes. A
`recv` that has failed has timed out or not. -/
inductive ContextAction
  | publishService
  | handleNewConnections (accept : ℤ)
  | send (buf : List UInt8) (answers : List (Option ℕ))
  | receive (recv : Option (List UInt8)) (timedOut : Bool)

namespace ServerContext

/-- `SERVER_publishService`. -/
def publishService (s : ServerContext) : ServerContext :=
  { s with connected := false, clientSocket := -1 }

/-- The context published for the first time. -/
def start (servedPortNo : ℕ) : ServerContext :=
  publishService ⟨servedPortNo, false, 0, [], false, false⟩

/-- `handleNewConnections` with a client that waits. What `accept` returns is not looked
at. -/
def handleNewConnections (s : ServerContext) (accept : ℤ) : ServerContext :=
  { s with
    connected := true
    clientSocket := accept
    accepted := if accept = -1 then s.accepted else s.accepted ++ [accept]
    gone := if accept = -1 then s.gone else false }

/-- A call of `send` in `SERVER_send` returns `-1`. -/
def sendFails (s : ServerContext) (buf : List UInt8) (answers : List (Option ℕ)) : Bool :=
  s.connected &&
    match loop (Server.bytesLeft buf) (Server.sendRound buf) answers ⟨0, []⟩ with
    | .returned _ rest => (answers.take (answers.length - rest.length)).contains none
    | .waiting _ => answers.contains none

/-- `SERVER_send`. -/
def send (s : ServerContext) (buf : List UInt8) (answers : List (Option ℕ)) : ServerContext :=
  { s with
    gone := s.gone || s.sendFails buf answers
    blocked := match Server.send s.connected buf answers with
      | .sending _ => true
      | _ => false }

/-- `recv` in `SERVER_receive` returns the end of the stream or an error. -/
def receiveFails (s : ServerContext) (recv : Option (List UInt8)) (timedOut : Bool) : Bool :=
  match Server.receive s.connected recv with
  | some bytes => bytes.isEmpty
  | none => s.connected && !timedOut

/-- `SERVER_receive`. -/
def receive (s : ServerContext) (recv : Option (List UInt8)) (timedOut : Bool) : ServerContext :=
  { s with gone := s.gone || s.receiveFails recv timedOut }

def step (s : ServerContext) (action : ContextAction) : ServerContext :=
  if s.blocked then s
  else
    match action with
    | .publishService => s.publishService
    | .handleNewConnections accept => s.handleNewConnections accept
    | .send buf answers => s.send buf answers
    | .receive recv timedOut => s.receive recv timedOut

/-! ## The law -/

/-- `clientSocket` has been accepted, and its peer has not been observed closed or broken. -/
def Live (s : ServerContext) : Prop := s.clientSocket ∈ s.accepted ∧ s.gone = false

/-- `connected` says whether there is a client, no descriptor is open but `clientSocket`, and
without a client the requests for the service are dealt with as before the first one. -/
structure Truthful (longBits : ℕ) (s : ServerContext) : Prop where
  connected : s.connected = true ↔ s.Live
  closed : s.accepted = [] ∨ s.accepted = [s.clientSocket]
  discoverable : ¬s.Live → ∀ ownIpAddress request,
    Server.handleNewServiceDiscoveryRequests longBits s.connected s.servedPortNo ownIpAddress
        request =
      Server.handleNewServiceDiscoveryRequests longBits false s.servedPortNo ownIpAddress request

/-- A client is accepted with success, and as the first one, the service is not published
again behind it, and no transfer observes that it has gone. -/
def Undisturbed (s : ServerContext) (action : ContextAction) : Prop :=
  s.blocked = false →
    match action with
    | .publishService => s.accepted = []
    | .handleNewConnections accept => accept ≠ -1 ∧ s.accepted = []
    | .send buf answers => s.sendFails buf answers = false
    | .receive recv timedOut => s.receiveFails recv timedOut = false

/-! ## The steps -/

variable {s : ServerContext} {longBits : ℕ}

theorem step_of_blocked (blocked : s.blocked = true) (action : ContextAction) :
    s.step action = s := if_pos blocked

theorem step_of_running (running : s.blocked = false) (action : ContextAction) :
    s.step action = match action with
      | .publishService => s.publishService
      | .handleNewConnections accept => s.handleNewConnections accept
      | .send buf answers => s.send buf answers
      | .receive recv timedOut => s.receive recv timedOut :=
  if_neg (by simp [running])

/-- Only what has been accepted is a descriptor. -/
structure ContextInv (longBits : ℕ) (s : ServerContext) : Prop where
  truthful : s.Truthful longBits
  descriptors : -1 ∉ s.accepted

/-- A context whose `connected` is right has the requests dealt with. -/
theorem Truthful.of_connected (connected : s.connected = true ↔ s.Live)
    (closed : s.accepted = [] ∨ s.accepted = [s.clientSocket]) : s.Truthful longBits where
  connected := connected
  closed := closed
  discoverable gone ownIpAddress request := by
    rw [Bool.eq_false_iff.mpr (mt connected.mp gone)]

/-- With a client there is a transfer, and it has observed nothing. -/
theorem sendFails_imp_connected {buf : List UInt8} {answers : List (Option ℕ)}
    (fails : s.sendFails buf answers = true) : s.connected = true :=
  (Bool.and_eq_true_iff.mp fails).1

theorem receiveFails_imp_connected {recv : Option (List UInt8)} {timedOut : Bool}
    (fails : s.receiveFails recv timedOut = true) : s.connected = true := by
  cases hconnected : s.connected with
  | true => rfl
  | false => simp [receiveFails, Server.receive, hconnected] at fails

theorem contextInv_start (servedPortNo : ℕ) : (start servedPortNo).ContextInv longBits where
  truthful :=
    .of_connected (iff_of_false nofun fun live => absurd live.1 List.not_mem_nil) (.inl rfl)
  descriptors := nofun

/-- A transfer that observes nothing keeps the law. -/
theorem contextInv_transfer (inv : s.ContextInv longBits) {fails : Bool} (nothing : fails = false)
    (blocked : Bool) :
    ContextInv longBits { s with gone := s.gone || fails, blocked := blocked } := by
  have hgone : (s.gone || fails) = s.gone := by rw [nothing, Bool.or_false]
  refine ⟨.of_connected ?_ inv.truthful.closed, inv.descriptors⟩
  rw [Live, hgone]
  exact inv.truthful.connected

/-- A transfer behind which the law holds has observed nothing. -/
theorem fails_eq_false_of_truthful {fails blocked : Bool}
    (connected : fails = true → s.connected = true)
    (truthful : Truthful longBits { s with gone := s.gone || fails, blocked := blocked }) :
    fails = false := by
  refine Bool.eq_false_iff.mpr fun hfails => ?_
  have hgone : (s.gone || fails) = false := (truthful.connected.mp (connected hfails)).2
  rw [hfails, Bool.or_true] at hgone
  cases hgone

/-- **One step** that nothing disturbs. -/
theorem contextInv_step (s : ServerContext) (action : ContextAction) (inv : s.ContextInv longBits)
    (undisturbed : s.Undisturbed action) : (s.step action).ContextInv longBits := by
  cases hblocked : s.blocked with
  | true =>
    rw [step_of_blocked hblocked]
    exact inv
  | false =>
    have hundisturbed := undisturbed hblocked
    rw [step_of_running hblocked]
    cases action with
    | publishService =>
      refine ⟨.of_connected (iff_of_false nofun fun live => ?_) (.inl hundisturbed),
        inv.descriptors⟩
      exact inv.descriptors live.1
    | handleNewConnections accept =>
      obtain ⟨hsuccess, hfirst⟩ := hundisturbed
      have haccepted : (s.handleNewConnections accept).accepted = [accept] := by
        simp [handleNewConnections, hsuccess, hfirst]
      refine ⟨.of_connected (iff_of_true rfl ⟨?_, ?_⟩) (.inr haccepted), ?_⟩
      · rw [haccepted]
        exact List.mem_singleton_self accept
      · simp [handleNewConnections, hsuccess]
      · rw [haccepted, List.mem_singleton]
        exact fun h => hsuccess h.symm
    | send buf answers => exact contextInv_transfer inv hundisturbed _
    | receive recv timedOut => exact contextInv_transfer inv hundisturbed _

/-- A disturbed step breaks the law. -/
theorem undisturbed_of_truthful (action : ContextAction) (inv : s.ContextInv longBits)
    (truthful : (s.step action).Truthful longBits) : s.Undisturbed action := by
  intro hblocked
  rw [step_of_running hblocked] at truthful
  cases action with
  | publishService =>
    rcases truthful.closed with hempty | hcurrent
    · exact hempty
    · have hcurrent : s.accepted = [-1] := hcurrent
      refine absurd ?_ inv.descriptors
      rw [hcurrent]
      exact List.mem_singleton_self _
  | handleNewConnections accept =>
    have hlive := truthful.connected.mp rfl
    have hclosed := truthful.closed
    by_cases hfailed : accept = -1
    · -- the descriptor that is not one has become the client's
      refine absurd ?_ inv.descriptors
      have hmem : accept ∈ s.accepted := by
        simpa [handleNewConnections, hfailed] using hlive.1
      rwa [hfailed] at hmem
    · refine ⟨hfailed, ?_⟩
      have haccepted : (s.handleNewConnections accept).accepted = s.accepted ++ [accept] := by
        simp [handleNewConnections, hfailed]
      rw [haccepted] at hclosed
      rcases hclosed with hempty | hcurrent
      · simp at hempty
      · have hlength := congrArg List.length hcurrent
        rw [List.length_append, List.length_singleton, List.length_singleton] at hlength
        exact List.length_eq_zero_iff.mp (by omega)
  | send buf answers => exact fails_eq_false_of_truthful sendFails_imp_connected truthful
  | receive recv timedOut => exact fails_eq_false_of_truthful receiveFails_imp_connected truthful

/-- **The connection state is truthful** along exactly the runs in which one client at most is
accepted, with success, and is neither seen to go nor followed by another publishing. -/
theorem truthful_iff_undisturbed (longBits servedPortNo : ℕ) (actions : List ContextAction) :
    Along step (fun s action => Truthful longBits (step s action)) (start servedPortNo) actions ↔
      Along step Undisturbed (start servedPortNo) actions :=
  along_law_iff contextInv_step (fun _ inv => inv.truthful)
    (fun _ action inv truthful => undisturbed_of_truthful action inv truthful)
    (contextInv_start servedPortNo) actions

/-- The client goes and `SERVER_receive` returns the end of its stream: a request for the
service is not answered any more. -/
theorem undiscoverable_behind_client :
    let s := run step (start 3380) [.handleNewConnections 5, .receive (some []) false]
    ¬s.Truthful 64 ∧ ¬s.Live ∧
      Server.handleNewServiceDiscoveryRequests 64 s.connected s.servedPortNo []
        (some ⟨0, serviceDiscoveryRequest 3380⟩) = none := by
  refine ⟨?_, ?_, rfl⟩
  · intro truthful
    cases (truthful.connected.mp rfl).2
  · intro live
    cases live.2

end ServerContext

end PiVision
