import PiVision.Service.Registry

/-!
# Subscribers and local provision

What the handler does get right, along every history in which a confirmation follows a
request: nobody who subscribed to a service that is available at the end has gone
without an announcement, a service is provided once and stays provided, and it is
looked for at most once.
-/

namespace PiVision

namespace ServiceHandler

open Machine

variable {n : ℕ} {log : Log} {e : ServiceEvent} {out : List ServiceEvent} {h h' : ServiceHandler}

/-- A confirmation follows a request for the same service. -/
def ConfirmsRequest (r : History) : ServiceEvent → Prop
  | .connectToServiceCfm n _ => .connectToServiceReq n ∈ raised r.log
  | _ => True

/-! ## Requests and provisions are raised once -/

/-- A service is looked for when its entry is made. -/
theorem Handles.request_raised (step : Handles h e h' out)
    (hmem : .connectToServiceReq n ∈ out) :
    h.services n = none ∧ h'.services n ≠ none ∧ out.count (.connectToServiceReq n) = 1 := by
  obtain rfl : n = e.serviceNo := step.serviceNo_of_mem hmem
  cases step with
  | ask entry =>
    refine ⟨entry, ?_, by simp [ServiceEvent.serviceNo]⟩
    rw [ServiceEvent.serviceNo, services_assign_self]
    exact Option.some_ne_none _
  | provide | answer | connect | reject => simp at hmem
  | _ => cases hmem

/-- A service is provided when its entry is neither local nor a socket, and is local then. -/
theorem Handles.provide_raised (step : Handles h e h' out) (hmem : .provideServiceInd n ∈ out) :
    ¬ h.Live n ∧ h'.services n = some localService ∧ out.count (.provideServiceInd n) = 1 := by
  obtain rfl : n = e.serviceNo := step.serviceNo_of_mem hmem
  cases step with
  | provide free => exact ⟨free, services_assign_self h _ _, by simp [ServiceEvent.serviceNo]⟩
  | ask | answer | connect | reject => simp at hmem
  | _ => cases hmem

/-- At most one request for a service, and none before it has an entry. -/
def AskedOnce (n : ℕ) (h : ServiceHandler) (log : Log) : Prop :=
  (raised log).count (.connectToServiceReq n) ≤ 1 ∧
    (.connectToServiceReq n ∈ raised log → h.services n ≠ none)

/-- At most one provision of a service, and none before it is local. -/
def ProvidedOnce (n : ℕ) (h : ServiceHandler) (log : Log) : Prop :=
  (raised log).count (.provideServiceInd n) ≤ 1 ∧
    (.provideServiceInd n ∈ raised log → h.services n = some localService)

theorem askedOnce_step (n : ℕ) (h : ServiceHandler) (log : Log) (e : ServiceEvent)
    (h' : ServiceHandler) (out : List ServiceEvent) (once : AskedOnce n h log)
    (outcome : h.handleEvent e = some (h', out)) : AskedOnce n h' (log ++ [(e, out)]) := by
  refine raised_once (fun h : ServiceHandler => h.services n ≠ none) ?_ ?_ log outcome once
  · intro h e h' out houtcome hmem
    obtain ⟨hbefore, hbehind, hcount⟩ := (handles_of_handleEvent houtcome).request_raised hmem
    exact ⟨by simp [hbefore], hbehind, hcount⟩
  · intro h e h' out houtcome
    exact (handles_of_handleEvent houtcome).services_ne_none

theorem providedOnce_step (n : ℕ) (h : ServiceHandler) (log : Log) (e : ServiceEvent)
    (h' : ServiceHandler) (out : List ServiceEvent) (once : ProvidedOnce n h log)
    (outcome : h.handleEvent e = some (h', out)) : ProvidedOnce n h' (log ++ [(e, out)]) := by
  refine raised_once (fun h : ServiceHandler => h.services n = some localService) ?_ ?_ log
    outcome once
  · intro h e h' out houtcome hmem
    obtain ⟨hbefore, hbehind, hcount⟩ := (handles_of_handleEvent houtcome).provide_raised hmem
    exact ⟨fun hentry => hbefore (live_of_local hentry), hbehind, hcount⟩
  · intro h e h' out houtcome hentry
    rw [(handles_of_handleEvent houtcome).services_of_live (live_of_local hentry), hentry]

theorem askedOnce_history (n : ℕ) (events : List ServiceEvent) :
    (history events).Holds (AskedOnce n) :=
  holds_run (askedOnce_step n) ⟨by simp, by simp⟩ events

theorem providedOnce_history (n : ℕ) (events : List ServiceEvent) :
    (history events).Holds (ProvidedOnce n) :=
  holds_run (providedOnce_step n) ⟨by simp, by simp⟩ events

/-- A confirmation of what has been asked for finds its entry. -/
theorem state_history_ne_none {events : List ServiceEvent}
    (requested : Along handleNext ConfirmsRequest (Recorded.start new) events) :
    (history events).state ≠ none := by
  refine state_run_ne_none (fun h log => ∀ n, AskedOnce n h log) ?_ ?_ ?_ requested
  · intro h log e h' out once houtcome n
    exact askedOnce_step n h log e h' out (once n) houtcome
  · intro h log e once hmeets hundefined
    obtain ⟨n, serviceId, rfl, hentry⟩ := handleEvent_eq_none_iff.mp hundefined
    exact (once n).2 hmeets hentry
  · intro n
    exact ⟨by simp, by simp⟩

/-! ## Subscribers -/

/-- While the service is live, every subscription to it has been answered, at once or
later. -/
def Answered (n : ℕ) (h : ServiceHandler) (log : Log) : Prop :=
  h.Live n → ∀ pre out post, log = pre ++ (.subscribeServiceInd n, out) :: post →
    .serviceAvailableInd n ∈ out ++ raised post

/-- A service that becomes live is announced, and so is a live one to its subscriber. -/
theorem Handles.available_of_live (step : Handles h e h' out) (live : h'.Live n)
    (news : ¬ h.Live n ∨ e = .subscribeServiceInd n) : .serviceAvailableInd n ∈ out := by
  by_cases hbefore : h.Live n
  · -- the service was live before, so the event is a subscription, which is answered
    obtain rfl := news.resolve_left (not_not_intro hbefore)
    cases step with
    | answer => simp
    | wait entry => exact absurd hbefore (not_live_of_disconnected entry)
    | ask entry => exact absurd hbefore (not_live_of_none entry)
  · by_cases hn : n = e.serviceNo
    swap
    · exact absurd ((live_congr (step.services_of_ne hn)).mp live) hbefore
    subst hn
    cases step with
    | provide | connect => simp [ServiceEvent.serviceNo]
    | ask => exact absurd live (by simp [ServiceEvent.serviceNo, live_assign_self])
    | _ => exact absurd live hbefore

theorem answered_step (n : ℕ) (h : ServiceHandler) (log : Log) (e : ServiceEvent)
    (h' : ServiceHandler) (out : List ServiceEvent) (answered : Answered n h log)
    (outcome : h.handleEvent e = some (h', out)) : Answered n h' (log ++ [(e, out)]) := by
  intro hlive pre answer post hsplit
  have step := handles_of_handleEvent outcome
  obtain ⟨hlast, -, rfl⟩ | ⟨before, rfl, hearlier⟩ := snoc_eq_append_cons hsplit
  · -- the subscription is the event of this step
    obtain ⟨rfl, rfl⟩ := Prod.mk.inj hlast
    simpa using step.available_of_live hlive (.inr rfl)
  · rw [raised_append, raised_singleton, ← List.append_assoc, List.mem_append]
    by_cases hbefore : h.Live n
    · exact .inl (answered hbefore pre answer before hearlier)
    · exact .inr (step.available_of_live hlive (.inl hbefore))

/-- No subscriber is forgotten: a service whose entry is present and not disconnected at
the end has been announced at each subscription to it, or behind it. -/
theorem subscribers_answered (events : List ServiceEvent)
    (requested : Along handleNext ConfirmsRequest (Recorded.start new) events) :
    ∃ h, (history events).state = some h ∧ handled (history events).log = events ∧
      ∀ n value, h.services n = some value → value ≠ remoteServiceDisconnected →
        ∀ pre out post, (history events).log = pre ++ (.subscribeServiceInd n, out) :: post →
          .serviceAvailableInd n ∈ out ++ raised post := by
  obtain ⟨h, hh⟩ := Option.ne_none_iff_exists'.mp (state_history_ne_none requested)
  refine ⟨h, hh, handled_run events hh, ?_⟩
  intro n value hvalue hne
  have hanswered : (history events).Holds (Answered n) := by
    refine holds_run (answered_step n) ?_ events
    intro _ pre out post hsplit
    simp at hsplit
  exact hanswered h hh ⟨value, hvalue, hne⟩

/-- Two subscriptions, and a confirmation behind the request of the first. -/
theorem subscribers_answered_two :
    ∃ h, (history [.subscribeServiceInd 7, .subscribeServiceInd 7,
        .connectToServiceCfm 7 5]).state = some h ∧
      ∀ out post, (history [.subscribeServiceInd 7, .subscribeServiceInd 7,
          .connectToServiceCfm 7 5]).log = (.subscribeServiceInd 7, out) :: post →
        .serviceAvailableInd 7 ∈ out ++ raised post := by
  obtain ⟨h, hh, -, hall⟩ := subscribers_answered [.subscribeServiceInd 7,
    .subscribeServiceInd 7, .connectToServiceCfm 7 5]
    ⟨trivial, trivial, show ServiceEvent.connectToServiceReq 7 ∈ raised _ by decide, trivial⟩
  obtain rfl := Option.some.inj hh
  exact ⟨_, rfl, hall 7 5 rfl (by decide) []⟩

/-! ## Local provision -/

/-- Provision is stable and announced once: a service is provided at most once, never
while a socket serves it, and is local from then on; and no two requests for it are
outstanding. -/
theorem provision_once (events : List ServiceEvent)
    (requested : Along handleNext ConfirmsRequest (Recorded.start new) events) :
    ∃ h, (history events).state = some h ∧ ∀ n,
      (raised (history events).log).count (.provideServiceInd n) ≤ 1 ∧
      (∀ e, .provideServiceInd n ∈ h.raisedBy e →
        ¬ Confirmed n (history events).log ∧
          ∀ value, h.services n = some value → value = remoteServiceDisconnected) ∧
      (h.services n = some localService → ∀ more h',
        (history (events ++ more)).state = some h' → h'.services n = some localService) ∧
      outstanding n (history events).log ≤ 1 := by
  obtain ⟨h, hh⟩ := Option.ne_none_iff_exists'.mp (state_history_ne_none requested)
  refine ⟨h, hh, fun n => ⟨(providedOnce_history n events h hh).1, ?_, ?_, ?_⟩⟩
  · intro e hmem
    obtain ⟨h', out, step, hout⟩ := mem_raisedBy hmem
    have hfree := (step.provide_raised hout).1
    refine ⟨fun hconfirmed =>
      hfree ((entryLaws_history events n h hh).live_iff.mpr (.inr hconfirmed)), ?_⟩
    intro value hvalue
    by_contra hne
    exact hfree ⟨value, hvalue, hne⟩
  · intro hentry more
    have hkeeps : Recorded.Holds (fun h _ => h.services n = some localService)
        (run handleNext (history events) more) := by
      refine run_invariant handleNext (fun r e holds => ?_) ?_ more
      · refine Recorded.Holds.record holds fun h h' out _ hlocal houtcome => ?_
        rw [(handles_of_handleEvent houtcome).services_of_live (live_of_local hlocal), hlocal]
      · intro t ht
        obtain rfl := Option.some.inj (hh.symm.trans ht)
        exact hentry
    intro h' hh'
    rw [history, run_append] at hh'
    exact hkeeps h' hh'
  · exact Nat.le_trans (outstanding_le_count n _) (askedOnce_history n events h hh).1

/-- A provision overtakes the answer to a request for the same service. -/
theorem provision_once_overtaken :
    (raised (history [.subscribeServiceInd 7, .serviceProvidedInd 7,
      .connectToServiceCfm 7 5, .serviceProvidedInd 7]).log).count (.provideServiceInd 7) ≤ 1 := by
  obtain ⟨h, -, hall⟩ := provision_once [.subscribeServiceInd 7, .serviceProvidedInd 7,
    .connectToServiceCfm 7 5, .serviceProvidedInd 7]
    ⟨trivial, trivial, show ServiceEvent.connectToServiceReq 7 ∈ raised _ by decide, trivial,
      trivial⟩
  exact (hall 7).1

end ServiceHandler

end PiVision
