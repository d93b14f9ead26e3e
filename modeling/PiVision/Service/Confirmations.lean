import PiVision.Service.Terminal

/-!
# A confirmation finds its entry

The handler looks the entry of a confirmed service up and does not check that there is
one. What keeps it from going wrong is spread over the system: an entry is made when a
request is raised and never removed, and a request is what every lookup, every status
that reports a connection, and every confirmation goes back to.
-/

namespace PiVision

open Machine

/-- The service whose request an event carries on: the request itself, the status that
reports a connection, the confirmation. -/
def ServiceEvent.requestFor : ServiceEvent → Option ℕ
  | connectToServiceReq n | connectToServiceCfm n _ | serviceStatusInd .connected n _ => some n
  | _ => none

namespace ServiceHandler

/-- Of these the handler raises requests only. -/
theorem Handles.eq_request {h h' : ServiceHandler} {e x : ServiceEvent} {out : List ServiceEvent}
    {n : ℕ} (step : Handles h e h' out) (hmem : x ∈ out) (hrequest : x.requestFor = some n) :
    x = .connectToServiceReq n := by
  cases step with
  | ask =>
    obtain rfl := List.mem_singleton.mp hmem
    rw [← Option.some.inj hrequest]
  | provide =>
    obtain rfl | rfl : x = _ ∨ x = _ := by simpa using hmem
    · cases hrequest
    · cases hrequest
  | answer | connect | reject =>
    obtain rfl := List.mem_singleton.mp hmem
    cases hrequest
  | _ => cases hmem

end ServiceHandler

namespace EthTerm

/-- What the terminal does about a request, it does because there was one. -/
theorem requestFor_of_mem {e x : ServiceEvent} {n : ℕ} (hmem : x ∈ (handleEvent e).1)
    (hrequest : x.requestFor = some n) : e.requestFor = some n := by
  cases e with
  | serviceStatusInd status m socketFd =>
    cases status with
    | connected =>
      obtain rfl := List.mem_singleton.mp hmem
      exact hrequest
    | disconnected | notFound =>
      obtain rfl := List.mem_singleton.mp hmem
      cases hrequest
  | _ => cases hmem

theorem requestFor_of_mem_jobs {e : ServiceEvent} {n : ℕ}
    (hmem : .connectService n ∈ (handleEvent e).2) : e.requestFor = some n := by
  cases e with
  | connectToServiceReq m =>
    obtain ⟨⟩ := List.mem_singleton.mp hmem
    rfl
  | serviceStatusInd status m socketFd =>
    cases status with
    | connected => cases List.mem_singleton.mp hmem
    | disconnected | notFound => cases hmem
  | provideServiceInd m => cases List.mem_singleton.mp hmem
  | _ => cases hmem

end EthTerm

namespace Terminal

/-- Everything under way on account of a service goes back to a request for it, and the
handler has had an outcome for every event so far. -/
structure Requested (t : Terminal) : Prop where
  live : t.service.state ≠ none
  once : ∀ n, t.service.Holds (ServiceHandler.AskedOnce n)
  inFlight : ∀ signal ∈ t.inFlight, ∀ n, signal.event.requestFor = some n →
    .connectToServiceReq n ∈ raised t.service.log
  jobs : ∀ n, .connectService n ∈ t.jobs → .connectToServiceReq n ∈ raised t.service.log

variable {t t' : Terminal} {signal : Signal}

/-- The entry of a service that an event in flight goes back to a request for. -/
theorem Requested.entry (inv : t.Requested) {h : ServiceHandler}
    (live : t.service.state = some h) (hmem : signal ∈ t.inFlight) {n : ℕ}
    (hrequest : signal.event.requestFor = some n) : h.services n ≠ none :=
  (inv.once n h live).2 (inv.inFlight signal hmem n hrequest)

theorem requested_start : start.Requested where
  live := Option.some_ne_none _
  once := by
    rintro n _ ⟨⟩
    exact ⟨by simp [start, Recorded.start], by simp [start, Recorded.start]⟩
  inFlight := by simp [start]
  jobs := by simp [start]

theorem Requested.deliver (inv : t.Requested) {i : ℕ} (sent : t.inFlight[i]? = some signal) :
    (t.deliver signal (t.inFlight.eraseIdx i)).Requested := by
  have hsignal : signal ∈ t.inFlight := List.mem_of_getElem? sent
  obtain ⟨h, hh⟩ := Option.ne_none_iff_exists'.mp inv.live
  -- a confirmation without an entry would be the one event without an outcome
  have hdefined : h.handleEvent signal.event ≠ none := by
    intro hundefined
    obtain ⟨n, serviceId, hevent, hentry⟩ :=
      ServiceHandler.handleEvent_eq_none_iff.mp hundefined
    exact inv.entry hh hsignal (by rw [hevent]; rfl) hentry
  obtain ⟨⟨h', out⟩, houtcome⟩ := Option.ne_none_iff_exists'.mp hdefined
  obtain ⟨hservice, hraised⟩ : (t.deliver signal (t.inFlight.eraseIdx i)).service = _ ∧ _ :=
    deliver_of_outcome hh houtcome
  have step := ServiceHandler.handles_of_handleEvent houtcome
  have hlog : ∀ n, .connectToServiceReq n ∈ raised t.service.log ∨ .connectToServiceReq n ∈ out →
      .connectToServiceReq n ∈
        raised (t.deliver signal (t.inFlight.eraseIdx i)).service.log := by
    intro n hmem
    simpa [hservice] using hmem
  constructor
  · simp [hservice]
  · intro n
    rw [hservice]
    rintro _ ⟨⟩
    exact ServiceHandler.askedOnce_step n h _ _ h' out (inv.once n h hh) houtcome
  · intro x hx n hrequest
    apply hlog
    obtain hrest | ⟨-, hhandler | hterm⟩ := mem_inFlight_deliver.mp hx
    · exact .inl (inv.inFlight x (List.mem_of_mem_eraseIdx hrest) n hrequest)
    · rw [hraised] at hhandler
      exact .inr (step.eq_request hhandler hrequest ▸ hhandler)
    · exact .inl (inv.inFlight signal hsignal n (EthTerm.requestFor_of_mem hterm hrequest))
  · intro n hjob
    apply hlog
    obtain hold | hnew := List.mem_append.mp hjob
    · exact .inl (inv.jobs n hold)
    · exact .inl (inv.inFlight signal hsignal n (EthTerm.requestFor_of_mem_jobs hnew))

/-- An event that carries on what a request asked for, or nothing, may be raised. -/
theorem Requested.raise (inv : t.Requested) {e : ServiceEvent} (origin : Origin)
    (asked : ∀ n, e.requestFor = some n → .connectToServiceReq n ∈ raised t.service.log) :
    (t.raise e origin).Requested where
  live := inv.live
  once := inv.once
  jobs := inv.jobs
  inFlight := by
    intro x hx n hrequest
    obtain hold | rfl := mem_inFlight_raise.mp hx
    · exact inv.inFlight x hold n hrequest
    · exact asked n hrequest

theorem Requested.withJobs (inv : t.Requested) {jobs : List TerminalJob}
    (asked : ∀ n, .connectService n ∈ jobs → .connectService n ∈ t.jobs) :
    { t with jobs := jobs }.Requested where
  live := inv.live
  once := inv.once
  inFlight := inv.inFlight
  jobs := fun n hjob => inv.jobs n (asked n hjob)

theorem Requested.moves (inv : t.Requested) {action : TerminalAction}
    (move : Moves t action t') : t'.Requested := by
  cases move with
  | subscribe => exact inv.raise _ (by rintro n ⟨⟩)
  | provide => exact inv.raise _ (by rintro n ⟨⟩)
  | deliver sent => exact inv.deliver sent
  | @lookUp i m answered connectToServer job =>
    have hjobs := inv.withJobs fun n hmem => List.mem_of_mem_eraseIdx (l := t.jobs) (i := i) hmem
    refine hjobs.raise _ fun n hrequest => ?_
    -- only the status that reports a connection carries the request on, and this job had it
    obtain rfl : m = n := by
      revert hrequest
      unfold EthTermConnectService.execute
      cases (EthTermConnectService.outcome answered connectToServer).1 with
      | connected => exact Option.some.inj
      | disconnected | notFound => rintro ⟨⟩
    exact inv.jobs m (List.mem_of_getElem? job)
  | accept job => exact inv.withJobs fun n hmem => by simpa using hmem
  | @endExecute i c job =>
    have hjobs := inv.withJobs fun n hmem => List.mem_of_mem_eraseIdx (l := t.jobs) (i := i) hmem
    exact hjobs.raise _ (by rintro n ⟨⟩)
  | idle => exact inv

theorem requested_step (t : Terminal) (action : TerminalAction) (inv : t.Requested) :
    (t.step action).Requested := inv.moves (moves_step t action)

theorem requested_run (actions : List TerminalAction) : (runFrom actions).Requested :=
  run_invariant step requested_step requested_start actions

/-- Confirmations find their entry: in every run the handler has had an outcome for every
event it was given, and the entry of a service stands in the map while a confirmation of
it is on its way, the moment of its delivery included. -/
theorem confirmations_find_entry (actions : List TerminalAction) :
    ∃ h, (runFrom actions).service.state = some h ∧
      ∀ i signal n serviceId, (runFrom actions).inFlight[i]? = some signal →
        signal.event = .connectToServiceCfm n serviceId →
          h.services n ≠ none ∧ ((runFrom actions).step (.deliver i)).service.state ≠ none := by
  have inv := requested_run actions
  obtain ⟨h, hh⟩ := Option.ne_none_iff_exists'.mp inv.live
  refine ⟨h, hh, fun i signal n serviceId sent hevent => ⟨?_, ?_⟩⟩
  · exact inv.entry hh (List.mem_of_getElem? sent) (by rw [hevent]; rfl)
  · exact (requested_step _ (.deliver i) inv).live

end Terminal

end PiVision
