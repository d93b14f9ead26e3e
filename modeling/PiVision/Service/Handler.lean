import Mathlib.Data.Nat.Notation
import Mathlib.Data.List.Count

/-!
# The service handler

`PiVisionServiceHandler` keeps a map from service numbers to sockets and answers four
kinds of event: a subscription to a service, its local provision, and the confirmation
and the rejection of a request to connect to it. An entry of the map has one of two
special values, for a service provided in this process and for one that no connection
serves; any other value is the socket of a connection.
-/

namespace PiVision

/-- `PiVisionServiceStatus`. -/
inductive ServiceStatus
  | connected
  | disconnected
  | notFound
  deriving DecidableEq, Repr

/-- The events between the service handler, the network terminal and its jobs, with
their data. -/
inductive ServiceEvent
  | connectToServiceReq (serviceNo : ℕ)
  | connectToServiceCfm (serviceNo : ℕ) (serviceId : UInt32)
  | connectToServiceRej (serviceNo : ℕ)
  | serviceStatusInd (status : ServiceStatus) (serviceNo : ℕ) (socketFd : Int32)
  | subscribeServiceInd (serviceNo : ℕ)
  | serviceAvailableInd (serviceNo : ℕ)
  | serviceUnavailableInd (serviceNo : ℕ)
  | serviceProvidedInd (serviceNo : ℕ)
  | provideServiceInd (serviceNo : ℕ)
  deriving DecidableEq, Repr

namespace ServiceEvent

/-- The service an event is about. -/
def serviceNo : ServiceEvent → ℕ
  | connectToServiceReq n | connectToServiceCfm n _ | connectToServiceRej n
  | serviceStatusInd _ n _ | subscribeServiceInd n | serviceAvailableInd n
  | serviceUnavailableInd n | serviceProvidedInd n | provideServiceInd n => n

end ServiceEvent

/-- The only member that changes: the map from services to sockets. -/
structure ServiceHandler where
  services : ℕ → Option Int32

namespace ServiceHandler

/-- `LOCAL_SERVICE`. -/
def localService : Int32 := 0

/-- `REMOTE_SERVICE_DISCONNECTED`. -/
def remoteServiceDisconnected : Int32 := -1

/-- The constructor: an empty map. -/
def new : ServiceHandler := ⟨fun _ => none⟩

/-- `services[serviceNo] = value`. -/
def assign (h : ServiceHandler) (serviceNo : ℕ) (value : Int32) : ServiceHandler :=
  ⟨fun n => if n = serviceNo then some value else h.services n⟩

@[simp] theorem services_new (n : ℕ) : new.services n = none := rfl

@[simp] theorem services_assign_self (h : ServiceHandler) (n : ℕ) (value : Int32) :
    (h.assign n value).services n = some value := if_pos rfl

theorem services_assign_of_ne (h : ServiceHandler) {n m : ℕ} (value : Int32) (hne : m ≠ n) :
    (h.assign n value).services m = h.services m := if_neg hne

/-- `HandleEvent`: the handler and the events raised behind the event. There is no
outcome where the iterator of an absent entry is dereferenced. -/
def handleEvent (h : ServiceHandler) : ServiceEvent → Option (ServiceHandler × List ServiceEvent)
  | .serviceProvidedInd n =>
    if h.services n = none ∨ h.services n = some remoteServiceDisconnected then
      some (h.assign n localService, [.serviceAvailableInd n, .provideServiceInd n])
    else some (h, [])
  | .subscribeServiceInd n =>
    match h.services n with
    | some value =>
      -- the service has been published by a local or a network actor
      if value ≠ remoteServiceDisconnected then some (h, [.serviceAvailableInd n])
      else some (h, [])
    | none => some (h.assign n remoteServiceDisconnected, [.connectToServiceReq n])
  | .connectToServiceCfm n serviceId =>
    match h.services n with
    | some value =>
      if value = remoteServiceDisconnected then
        some (h.assign n serviceId.toInt32, [.serviceAvailableInd n])
      else some (h, [])
    -- `service->second` with `service == services.end()`
    | none => none
  | .connectToServiceRej n => some (h, [.serviceUnavailableInd n])
  | _ => some (h, [])

/-- The events raised while an event is handled. -/
def raisedBy (h : ServiceHandler) (e : ServiceEvent) : List ServiceEvent :=
  ((h.handleEvent e).map Prod.snd).getD []

/-- The entry is one that subscriptions are answered from: a local provision or a
socket. -/
def Live (h : ServiceHandler) (n : ℕ) : Prop :=
  ∃ value, h.services n = some value ∧ value ≠ remoteServiceDisconnected

theorem live_of_local {h : ServiceHandler} {n : ℕ} (entry : h.services n = some localService) :
    h.Live n := ⟨_, entry, by decide⟩

theorem not_live_of_none {h : ServiceHandler} {n : ℕ} (entry : h.services n = none) :
    ¬ h.Live n := by
  rintro ⟨value, hvalue, -⟩
  rw [entry] at hvalue
  cases hvalue

theorem not_live_of_disconnected {h : ServiceHandler} {n : ℕ}
    (entry : h.services n = some remoteServiceDisconnected) : ¬ h.Live n := by
  rintro ⟨value, hvalue, hne⟩
  rw [entry] at hvalue
  exact hne (Option.some.inj hvalue).symm

/-- The three kinds of entry. -/
theorem entry_cases (h : ServiceHandler) (n : ℕ) :
    h.services n = none ∨ h.services n = some remoteServiceDisconnected ∨ h.Live n := by
  cases hentry : h.services n with
  | none => exact .inl rfl
  | some value =>
    by_cases hvalue : value = remoteServiceDisconnected
    · exact .inr (.inl (by rw [hvalue]))
    · exact .inr (.inr ⟨value, hentry, hvalue⟩)

/-- What the handler can do, one case an outcome. -/
inductive Handles (h : ServiceHandler) :
    ServiceEvent → ServiceHandler → List ServiceEvent → Prop
  | provide {n : ℕ} (free : ¬ h.Live n) :
    Handles h (.serviceProvidedInd n) (h.assign n localService)
      [.serviceAvailableInd n, .provideServiceInd n]
  | provideIgnored {n : ℕ} (live : h.Live n) : Handles h (.serviceProvidedInd n) h []
  | answer {n : ℕ} (live : h.Live n) :
    Handles h (.subscribeServiceInd n) h [.serviceAvailableInd n]
  | wait {n : ℕ} (entry : h.services n = some remoteServiceDisconnected) :
    Handles h (.subscribeServiceInd n) h []
  | ask {n : ℕ} (entry : h.services n = none) :
    Handles h (.subscribeServiceInd n) (h.assign n remoteServiceDisconnected)
      [.connectToServiceReq n]
  | connect {n : ℕ} {serviceId : UInt32}
      (entry : h.services n = some remoteServiceDisconnected) :
    Handles h (.connectToServiceCfm n serviceId) (h.assign n serviceId.toInt32)
      [.serviceAvailableInd n]
  | confirmIgnored {n : ℕ} {serviceId : UInt32} (live : h.Live n) :
    Handles h (.connectToServiceCfm n serviceId) h []
  | reject {n : ℕ} : Handles h (.connectToServiceRej n) h [.serviceUnavailableInd n]
  | request {n : ℕ} : Handles h (.connectToServiceReq n) h []
  | status {status : ServiceStatus} {n : ℕ} {socketFd : Int32} :
    Handles h (.serviceStatusInd status n socketFd) h []
  | available {n : ℕ} : Handles h (.serviceAvailableInd n) h []
  | unavailable {n : ℕ} : Handles h (.serviceUnavailableInd n) h []
  | provideInd {n : ℕ} : Handles h (.provideServiceInd n) h []

variable {h h' : ServiceHandler} {e : ServiceEvent} {out : List ServiceEvent} {n : ℕ}

theorem handleEvent_provide (free : ¬ h.Live n) :
    h.handleEvent (.serviceProvidedInd n) =
      some (h.assign n localService, [.serviceAvailableInd n, .provideServiceInd n]) := by
  obtain hentry | hentry | hlive := h.entry_cases n
  · simp [handleEvent, hentry]
  · simp [handleEvent, hentry]
  · exact absurd hlive free

theorem handleEvent_provide_of_live (live : h.Live n) :
    h.handleEvent (.serviceProvidedInd n) = some (h, []) := by
  obtain ⟨value, hentry, hvalue⟩ := live
  simp [handleEvent, hentry, hvalue]

theorem handleEvent_subscribe_of_live (live : h.Live n) :
    h.handleEvent (.subscribeServiceInd n) = some (h, [.serviceAvailableInd n]) := by
  obtain ⟨value, hentry, hvalue⟩ := live
  simp [handleEvent, hentry, hvalue]

theorem handleEvent_confirm_of_live (live : h.Live n) (serviceId : UInt32) :
    h.handleEvent (.connectToServiceCfm n serviceId) = some (h, []) := by
  obtain ⟨value, hentry, hvalue⟩ := live
  simp [handleEvent, hentry, hvalue]

theorem handleEvent_confirm_of_none (entry : h.services n = none) (serviceId : UInt32) :
    h.handleEvent (.connectToServiceCfm n serviceId) = none := by
  simp [handleEvent, entry]

/-- An outcome of the function is one of the cases. -/
theorem handles_of_handleEvent (outcome : h.handleEvent e = some (h', out)) :
    Handles h e h' out := by
  cases e with
  | serviceProvidedInd n =>
    by_cases hlive : h.Live n
    · rw [handleEvent_provide_of_live hlive] at outcome
      cases outcome
      exact .provideIgnored hlive
    · rw [handleEvent_provide hlive] at outcome
      cases outcome
      exact .provide hlive
  | subscribeServiceInd n =>
    obtain hentry | hentry | hlive := h.entry_cases n
    · simp only [handleEvent, hentry] at outcome
      cases outcome
      exact .ask hentry
    · simp only [handleEvent, hentry, ne_eq, not_true_eq_false, if_false] at outcome
      cases outcome
      exact .wait hentry
    · rw [handleEvent_subscribe_of_live hlive] at outcome
      cases outcome
      exact .answer hlive
  | connectToServiceCfm n serviceId =>
    obtain hentry | hentry | hlive := h.entry_cases n
    · rw [handleEvent_confirm_of_none hentry] at outcome
      cases outcome
    · simp only [handleEvent, hentry, if_true] at outcome
      cases outcome
      exact .connect hentry
    · rw [handleEvent_confirm_of_live hlive] at outcome
      cases outcome
      exact .confirmIgnored hlive
  | connectToServiceRej n => cases outcome; exact .reject
  | connectToServiceReq n => cases outcome; exact .request
  | serviceStatusInd status n socketFd => cases outcome; exact .status
  | serviceAvailableInd n => cases outcome; exact .available
  | serviceUnavailableInd n => cases outcome; exact .unavailable
  | provideServiceInd n => cases outcome; exact .provideInd

/-- Only a confirmation of a service without an entry has no outcome. -/
theorem handleEvent_eq_none_iff :
    h.handleEvent e = none ↔
      ∃ n serviceId, e = .connectToServiceCfm n serviceId ∧ h.services n = none := by
  constructor
  · intro outcome
    cases e with
    | serviceProvidedInd n => simp only [handleEvent] at outcome; split at outcome <;> cases outcome
    | subscribeServiceInd n =>
      obtain hentry | hentry | hlive := h.entry_cases n
      · simp [handleEvent, hentry] at outcome
      · simp [handleEvent, hentry] at outcome
      · rw [handleEvent_subscribe_of_live hlive] at outcome
        cases outcome
    | connectToServiceCfm n serviceId =>
      refine ⟨n, serviceId, rfl, ?_⟩
      cases hentry : h.services n with
      | none => rfl
      | some value =>
        simp only [handleEvent, hentry] at outcome
        split at outcome <;> cases outcome
    | connectToServiceRej | connectToServiceReq | serviceStatusInd | serviceAvailableInd
    | serviceUnavailableInd | provideServiceInd => cases outcome
  · rintro ⟨n, serviceId, rfl, hentry⟩
    exact handleEvent_confirm_of_none hentry serviceId

namespace Handles

/-- An event changes no entry but its own service's. -/
theorem services_of_ne (step : Handles h e h' out) (hne : n ≠ e.serviceNo) :
    h'.services n = h.services n := by
  cases step with
  | provide | ask | connect => exact services_assign_of_ne h _ hne
  | _ => rfl

/-- All that is raised is about the service of the event. -/
theorem serviceNo_of_mem (step : Handles h e h' out) {x : ServiceEvent} (hmem : x ∈ out) :
    x.serviceNo = e.serviceNo := by
  cases step with
  | provide =>
    obtain rfl | rfl : x = _ ∨ x = _ := by simpa using hmem
    · rfl
    · rfl
  | answer | ask | connect | reject =>
    obtain rfl := List.mem_singleton.mp hmem
    rfl
  | _ => cases hmem

/-- Entries are never removed. -/
theorem services_ne_none (step : Handles h e h' out) (present : h.services n ≠ none) :
    h'.services n ≠ none := by
  by_cases hn : n = e.serviceNo
  · subst hn
    cases step with
    | provide | ask | connect =>
      rw [ServiceEvent.serviceNo, services_assign_self]
      exact Option.some_ne_none _
    | _ => exact present
  · rwa [step.services_of_ne hn]

/-- A live entry is never changed. -/
theorem services_of_live (step : Handles h e h' out) (live : h.Live n) :
    h'.services n = h.services n := by
  by_cases hn : n = e.serviceNo
  · subst hn
    cases step with
    | provide free => exact absurd live free
    | ask entry => exact absurd live (not_live_of_none entry)
    | connect entry => exact absurd live (not_live_of_disconnected entry)
    | _ => rfl
  · exact step.services_of_ne hn

end Handles

end ServiceHandler

end PiVision
