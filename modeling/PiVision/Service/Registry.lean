import PiVision.Service.History

/-!
# Lost services and failed lookups

An entry has one value for a service that is being looked for and for one that was not
found, and a rejection does not change it. So a connection that has been lost stays in
the map and is handed out again, and a service that was not found is never looked for
again. Both laws below hold exactly along the histories that do not come back to such a
service.
-/

namespace PiVision

namespace ServiceHandler

open Machine

variable {n : ℕ} {log : Log} {e : ServiceEvent} {out : List ServiceEvent} {h h' : ServiceHandler}
  {r : History}

theorem mem_raisedBy {x : ServiceEvent} (hmem : x ∈ h.raisedBy e) :
    ∃ h' out, Handles h e h' out ∧ x ∈ out := by
  cases houtcome : h.handleEvent e with
  | none => simp [raisedBy, houtcome] at hmem
  | some next =>
    obtain ⟨h', out⟩ := next
    refine ⟨h', out, handles_of_handleEvent houtcome, ?_⟩
    simpa [raisedBy, houtcome] using hmem

theorem raisedBy_subscribe_of_live (live : h.Live n) :
    h.raisedBy (.subscribeServiceInd n) = [.serviceAvailableInd n] := by
  rw [raisedBy, handleEvent_subscribe_of_live live]
  rfl

theorem raisedBy_subscribe_of_none (entry : h.services n = none) :
    h.raisedBy (.subscribeServiceInd n) = [.connectToServiceReq n] := by
  simp [raisedBy, handleEvent, entry]

theorem raisedBy_subscribe_of_disconnected
    (entry : h.services n = some remoteServiceDisconnected) :
    h.raisedBy (.subscribeServiceInd n) = [] := by
  simp [raisedBy, handleEvent, entry]

theorem raisedBy_confirm_of_disconnected (entry : h.services n = some remoteServiceDisconnected)
    (serviceId : UInt32) :
    h.raisedBy (.connectToServiceCfm n serviceId) = [.serviceAvailableInd n] := by
  simp [raisedBy, handleEvent, entry]

/-- A service is announced by its provision, by its confirmation, or to a subscriber who
finds it live. -/
theorem available_mem_raisedBy (hmem : .serviceAvailableInd n ∈ h.raisedBy e) :
    e = .serviceProvidedInd n ∨ (e = .subscribeServiceInd n ∧ h.Live n) ∨
      ∃ serviceId, e = .connectToServiceCfm n serviceId ∧
        h.services n = some remoteServiceDisconnected := by
  obtain ⟨h', out, step, hout⟩ := mem_raisedBy hmem
  obtain rfl : n = e.serviceNo := step.serviceNo_of_mem hout
  cases step with
  | provide => exact .inl rfl
  | answer live => exact .inr (.inl ⟨rfl, live⟩)
  | connect entry => exact .inr (.inr ⟨_, rfl, entry⟩)
  | ask | reject => simp at hout
  | _ => cases hout

/-! ## Lost services -/

/-- At this event the registry reflects what has been lost. A subscription is told that a
service is available only if it is provided here or the last verdict on it is a
confirmation; a lost service is announced by its provision and its confirmation only;
and a confirmation of it does announce it. -/
def ReflectsLoss (r : History) (e : ServiceEvent) : Prop :=
  ∀ h, r.state = some h → ∀ n,
    (e = .subscribeServiceInd n → .serviceAvailableInd n ∈ h.raisedBy e →
      ProvidedLocally n r.log ∨ lastVerdict n r.log = some .confirmed) ∧
    (Lost n r.log → .serviceAvailableInd n ∈ h.raisedBy e →
      e = .serviceProvidedInd n ∨ ∃ serviceId, e = .connectToServiceCfm n serviceId) ∧
    (Lost n r.log → ∀ serviceId, e = .connectToServiceCfm n serviceId →
      .serviceAvailableInd n ∈ h.raisedBy e)

/-- The event does not come back to a service that had been confirmed and was lost: it is
neither a subscription to it nor a confirmation of it, and a confirmation of a service
that is lost has been subscribed to. -/
def LeavesLostAlone (r : History) (e : ServiceEvent) : Prop :=
  r.state ≠ none → ∀ n, Lost n r.log →
    (e = .subscribeServiceInd n → ¬ Confirmed n r.log) ∧
    ∀ serviceId, e = .connectToServiceCfm n serviceId →
      ¬ Confirmed n r.log ∧ .subscribeServiceInd n ∈ handled r.log

/-- An event at which the law holds leaves a lost service alone. -/
theorem ReflectsLoss.leavesLostAlone (law : ReflectsLoss r e) (laws : EntryLaws r) :
    LeavesLostAlone r e := by
  intro hstate n hlost
  obtain ⟨h, hh⟩ := Option.ne_none_iff_exists'.mp hstate
  obtain ⟨hanswered, -, hconfirms⟩ := law h hh n
  have entry := laws n h hh
  constructor
  · rintro rfl hconfirmed
    have hlive := entry.live_iff.mpr (.inr hconfirmed)
    obtain hprovided | hverdict := hanswered rfl (by simp [raisedBy_subscribe_of_live hlive])
    · exact hlost.2 hprovided
    · rw [hlost.1] at hverdict
      cases hverdict
  · rintro serviceId rfl
    -- the confirmation is announced, so the entry is that of a service not connected
    obtain hno | ⟨hno, -⟩ | ⟨_, -, hentry⟩ :=
      available_mem_raisedBy (hconfirms hlost serviceId rfl)
    · cases hno
    · cases hno
    refine ⟨fun hconfirmed =>
      not_live_of_disconnected hentry (entry.live_iff.mpr (.inr hconfirmed)), ?_⟩
    exact (entry.present_iff.mp (by simp [hentry])).resolve_left hlost.2

/-- A service that has been confirmed, and not last, has last been rejected. -/
theorem lastVerdict_eq_rejected (confirmed : Confirmed n log)
    (notLast : lastVerdict n log ≠ some .confirmed) : lastVerdict n log = some .rejected := by
  cases hverdict : lastVerdict n log with
  | none => exact absurd hverdict (lastVerdict_ne_none_of_confirmed confirmed)
  | some verdict =>
    cases verdict with
    | confirmed => exact absurd hverdict notLast
    | rejected => rfl

/-- Of lost services that are left alone the entries tell the truth. -/
theorem LeavesLostAlone.reflectsLoss (meets : LeavesLostAlone r e) (laws : EntryLaws r) :
    ReflectsLoss r e := by
  intro h hh n
  have entry := laws n h hh
  have hmeets := meets (by simp [hh]) n
  -- a lost service that was never confirmed is not live
  have hdead : Lost n r.log → ¬ Confirmed n r.log → ¬ h.Live n := fun hlost hconfirmed hlive =>
    (entry.live_iff.mp hlive).elim hlost.2 hconfirmed
  refine ⟨?_, ?_, ?_⟩
  · rintro rfl hmem
    obtain hno | ⟨-, hlive⟩ | ⟨_, hno, -⟩ := available_mem_raisedBy hmem
    · cases hno
    swap
    · cases hno
    by_contra hneither
    rw [not_or] at hneither
    have hconfirmed := (entry.live_iff.mp hlive).resolve_left hneither.1
    have hrejected := lastVerdict_eq_rejected hconfirmed hneither.2
    exact (hmeets ⟨hrejected, hneither.1⟩).1 rfl hconfirmed
  · intro hlost hmem
    obtain rfl | ⟨rfl, hlive⟩ | ⟨serviceId, rfl, -⟩ := available_mem_raisedBy hmem
    · exact .inl rfl
    · exact absurd hlive (hdead hlost ((hmeets hlost).1 rfl))
    · exact .inr ⟨serviceId, rfl⟩
  · rintro hlost serviceId rfl
    obtain ⟨hconfirmed, hasked⟩ := (hmeets hlost).2 serviceId rfl
    obtain hentry | hentry | hlive := h.entry_cases n
    · exact absurd hentry (entry.present_iff.mpr (.inr hasked))
    · simp [raisedBy_confirm_of_disconnected hentry]
    · exact absurd hlive (hdead hlost hconfirmed)

theorem reflectsLoss_iff_leavesLostAlone (laws : EntryLaws r) (e : ServiceEvent) :
    ReflectsLoss r e ↔ LeavesLostAlone r e :=
  ⟨fun law => law.leavesLostAlone laws, fun meets => meets.reflectsLoss laws⟩

/-- The registry reflects lost services along exactly the histories that leave a service
alone once it has been confirmed and lost. -/
theorem reflectsLoss_iff (events : List ServiceEvent) :
    Along handleNext ReflectsLoss (Recorded.start new) events ↔
      Along handleNext LeavesLostAlone (Recorded.start new) events :=
  along_congr_of_invariant entryLaws_handleNext
    (fun _ e laws => reflectsLoss_iff_leavesLostAlone laws e) entryLaws_start events

/-- A service is found, its connection ends, and the next subscriber is told that it is
available. -/
theorem reflectsLoss_broken :
    ¬ Along handleNext ReflectsLoss (Recorded.start new)
      [.subscribeServiceInd 7, .connectToServiceCfm 7 5, .connectToServiceRej 7,
        .subscribeServiceInd 7] := by
  rintro ⟨-, -, -, hlast, -⟩
  obtain ⟨hanswered, -, -⟩ := hlast _ rfl 7
  obtain hprovided | hverdict := hanswered rfl (by decide)
  · exact absurd hprovided (by unfold ProvidedLocally; decide)
  · exact absurd hverdict (by decide)

/-! ## Failed lookups -/

/-- At this event a failed lookup is retried: a subscription to a service that is neither
local nor connected, and that no request is outstanding for, raises a request. -/
def RetriesLookup (r : History) (e : ServiceEvent) : Prop :=
  ∀ h, r.state = some h → ∀ n, e = .subscribeServiceInd n → ¬ h.Live n →
    outstanding n r.log = 0 → .connectToServiceReq n ∈ h.raisedBy e

/-- The event is not one more subscription to a service that was subscribed to before,
is neither provided nor confirmed, and is not being looked for any more. -/
def SubscribesWhileLookedFor (r : History) (e : ServiceEvent) : Prop :=
  r.state ≠ none → ∀ n, e = .subscribeServiceInd n → .subscribeServiceInd n ∈ handled r.log →
    ¬ ProvidedLocally n r.log → ¬ Confirmed n r.log → outstanding n r.log ≠ 0

theorem retriesLookup_iff_subscribesWhileLookedFor (laws : EntryLaws r)
    (e : ServiceEvent) : RetriesLookup r e ↔ SubscribesWhileLookedFor r e := by
  constructor
  · rintro law hstate n rfl hbefore hprovided hconfirmed hout
    obtain ⟨h, hh⟩ := Option.ne_none_iff_exists'.mp hstate
    have entry := laws n h hh
    have hdead : ¬ h.Live n := fun hlive => (entry.live_iff.mp hlive).elim hprovided hconfirmed
    have hmem := law h hh n rfl hdead hout
    -- the entry that the first subscription has left behind silences this one
    obtain hentry | hentry | hlive := h.entry_cases n
    · exact entry.present_iff.mpr (.inr hbefore) hentry
    · simp [raisedBy_subscribe_of_disconnected hentry] at hmem
    · exact hdead hlive
  · rintro meets h hh n rfl hdead hout
    have entry := laws n h hh
    have hnever : ¬ (ProvidedLocally n r.log ∨ Confirmed n r.log) :=
      fun hknown => hdead (entry.live_iff.mpr hknown)
    rw [not_or] at hnever
    have hfirst : .subscribeServiceInd n ∉ handled r.log :=
      fun hbefore => meets (by simp [hh]) n rfl hbefore hnever.1 hnever.2 hout
    have hentry : h.services n = none := by
      by_contra hpresent
      exact (entry.present_iff.mp hpresent).elim hnever.1 hfirst
    simp [raisedBy_subscribe_of_none hentry]

/-- Failed lookups are retried along exactly the histories in which nobody subscribes
again to a service whose lookup has failed. -/
theorem retriesLookup_iff (events : List ServiceEvent) :
    Along handleNext RetriesLookup (Recorded.start new) events ↔
      Along handleNext SubscribesWhileLookedFor (Recorded.start new) events :=
  along_congr_of_invariant entryLaws_handleNext
    (fun _ e laws => retriesLookup_iff_subscribesWhileLookedFor laws e) entryLaws_start events

/-- A service is not found, and the next subscription to it is ignored. -/
theorem retriesLookup_broken :
    ¬ Along handleNext RetriesLookup (Recorded.start new)
      [.subscribeServiceInd 7, .connectToServiceRej 7, .subscribeServiceInd 7] := by
  rintro ⟨-, -, hlast, -⟩
  have hmem := hlast _ rfl 7 rfl (not_live_of_disconnected rfl) (by decide)
  exact absurd hmem (by decide)

end ServiceHandler

end PiVision
