import Mathlib.Data.List.Induction
import PiVision.Lib.History
import PiVision.Service.Handler

/-!
# What a history says about an entry

The map of the service handler is a function of the events it has handled, and this
file reads the entry of one service off them: whether it was provided here, whether it
was confirmed, and what the last verdict on a request for it was. An entry does not
keep that last verdict, nor whether a request is still to be answered.
-/

namespace PiVision

namespace ServiceHandler

open Machine

/-- The events handled, each with the events raised. -/
abbrev Log := List (ServiceEvent × List ServiceEvent)

/-- The handler with its log. -/
abbrev History := Recorded ServiceHandler ServiceEvent ServiceEvent

/-- One event of a history. -/
def handleNext : History → ServiceEvent → History := record handleEvent

/-- The history of a handler to which these events are delivered in this order. -/
def history (events : List ServiceEvent) : History := run handleNext (Recorded.start new) events

/-- The two answers to a request to connect. -/
inductive Verdict
  | confirmed
  | rejected
  deriving DecidableEq, Repr

/-- The verdict an event brings for a service. -/
def verdictOn (n : ℕ) : ServiceEvent → Option Verdict
  | .connectToServiceCfm m _ => if m = n then some .confirmed else none
  | .connectToServiceRej m => if m = n then some .rejected else none
  | _ => none

/-- The last verdict handled for a service. -/
def lastVerdict (n : ℕ) (log : Log) : Option Verdict :=
  ((handled log).filterMap (verdictOn n)).getLast?

/-- The number of requests raised for a service that no verdict has answered. -/
def outstanding (n : ℕ) (log : Log) : ℕ :=
  log.foldl (fun k entry =>
    k - (if (verdictOn n entry.1).isSome then 1 else 0) +
      entry.2.count (.connectToServiceReq n)) 0

/-- The handler has taken the service for one of this process, and had it listened for. -/
def ProvidedLocally (n : ℕ) (log : Log) : Prop := .provideServiceInd n ∈ raised log

/-- A socket has been confirmed for the service. -/
def Confirmed (n : ℕ) (log : Log) : Prop :=
  ∃ serviceId : UInt32, .connectToServiceCfm n serviceId ∈ handled log ∧
    serviceId.toInt32 ≠ remoteServiceDisconnected

/-- The service is remote and the last thing heard of it is a rejection. -/
def Lost (n : ℕ) (log : Log) : Prop :=
  lastVerdict n log = some .rejected ∧ ¬ ProvidedLocally n log

variable {n : ℕ} {log : Log} {e : ServiceEvent} {out : List ServiceEvent} {h h' : ServiceHandler}

theorem outstanding_snoc (n : ℕ) (log : Log) (e : ServiceEvent) (out : List ServiceEvent) :
    outstanding n (log ++ [(e, out)]) =
      outstanding n log - (if (verdictOn n e).isSome then 1 else 0) +
        out.count (.connectToServiceReq n) := by
  simp [outstanding]

/-- No more requests are outstanding than were raised. -/
theorem outstanding_le_count (n : ℕ) (log : Log) :
    outstanding n log ≤ (raised log).count (.connectToServiceReq n) := by
  induction log using List.reverseRecOn with
  | nil => simp [outstanding]
  | append_singleton log entry ih =>
    rw [outstanding_snoc, raised_append, raised_singleton, List.count_append]
    omega

theorem lastVerdict_ne_none_of_confirmed (confirmed : Confirmed n log) :
    lastVerdict n log ≠ none := by
  obtain ⟨serviceId, hmem, -⟩ := confirmed
  have hverdict : Verdict.confirmed ∈ (handled log).filterMap (verdictOn n) :=
    List.mem_filterMap.mpr ⟨_, hmem, by simp [verdictOn]⟩
  rw [lastVerdict, ne_eq, List.getLast?_eq_none_iff]
  exact List.ne_nil_of_mem hverdict

theorem providedLocally_snoc :
    ProvidedLocally n (log ++ [(e, out)]) ↔
      ProvidedLocally n log ∨ .provideServiceInd n ∈ out := by
  simp [ProvidedLocally]

/-- A confirmation counts unless the socket it names is the special value of the map. -/
theorem confirmed_snoc :
    Confirmed n (log ++ [(e, out)]) ↔
      Confirmed n log ∨ ∃ serviceId : UInt32, e = .connectToServiceCfm n serviceId ∧
        serviceId.toInt32 ≠ remoteServiceDisconnected := by
  simp only [Confirmed, handled_append, handled_singleton, List.mem_append, List.mem_singleton,
    or_and_right, exists_or]
  refine or_congr_right (exists_congr fun serviceId => and_congr_left fun _ => eq_comm)

/-! ## The entry as a function of the history -/

/-- What the log says about the entry of a service. -/
structure EntryLaw (n : ℕ) (h : ServiceHandler) (log : Log) : Prop where
  live_iff : h.Live n ↔ ProvidedLocally n log ∨ Confirmed n log
  present_iff : h.services n ≠ none ↔
    ProvidedLocally n log ∨ .subscribeServiceInd n ∈ handled log

theorem live_assign_self {value : Int32} :
    (h.assign n value).Live n ↔ value ≠ remoteServiceDisconnected := by
  simp [Live]

theorem live_congr (same : h'.services n = h.services n) : h'.Live n ↔ h.Live n := by
  rw [Live, Live, same]

/-- An event about another service adds nothing that the law speaks of. -/
theorem EntryLaw.of_ne (law : EntryLaw n h log) (step : Handles h e h' out)
    (hne : n ≠ e.serviceNo) : EntryLaw n h' (log ++ [(e, out)]) := by
  have hsame := step.services_of_ne hne
  have hprovided : .provideServiceInd n ∉ out := fun hmem => hne (step.serviceNo_of_mem hmem)
  have hconfirmed : ¬ ∃ serviceId : UInt32, e = .connectToServiceCfm n serviceId ∧
      serviceId.toInt32 ≠ remoteServiceDisconnected := by
    rintro ⟨serviceId, rfl, -⟩
    exact hne rfl
  have hsubscribed : .subscribeServiceInd n ≠ e := by
    rintro rfl
    exact hne rfl
  constructor
  · rw [live_congr hsame, law.live_iff, providedLocally_snoc, confirmed_snoc]
    simp only [hprovided, hconfirmed, or_false]
  · rw [hsame, law.present_iff, providedLocally_snoc, handled_append]
    simp [hprovided, hsubscribed]

/-- Each outcome of the handler keeps the entry what the log says. -/
theorem EntryLaw.step (law : EntryLaw n h log) (step : Handles h e h' out) :
    EntryLaw n h' (log ++ [(e, out)]) := by
  by_cases hn : n = e.serviceNo
  swap
  · exact law.of_ne step hn
  obtain ⟨hlive, hpresent⟩ := law
  subst hn
  cases step with
  | @provide n free =>
    constructor
    · simp only [ServiceEvent.serviceNo, live_assign_self, providedLocally_snoc, confirmed_snoc]
      exact iff_of_true (by decide) (.inl (.inr (by simp)))
    · simp [ServiceEvent.serviceNo, providedLocally_snoc]
  | @ask n entry =>
    -- nothing was known of the service, and nothing but a subscription is known now
    have hnever : ¬ (ProvidedLocally n log ∨ Confirmed n log) :=
      fun hknown => not_live_of_none entry (hlive.mpr hknown)
    rw [not_or] at hnever
    constructor
    · simp [ServiceEvent.serviceNo, live_assign_self, providedLocally_snoc, confirmed_snoc, hnever]
    · simp [ServiceEvent.serviceNo]
  | @connect n serviceId entry =>
    have hnever : ¬ (ProvidedLocally n log ∨ Confirmed n log) :=
      fun hknown => not_live_of_disconnected entry (hlive.mpr hknown)
    have hasked : ProvidedLocally n log ∨ .subscribeServiceInd n ∈ handled log :=
      hpresent.mp (by simp [ServiceEvent.serviceNo, entry])
    rw [not_or] at hnever
    constructor
    · simp [ServiceEvent.serviceNo, live_assign_self, providedLocally_snoc, confirmed_snoc, hnever]
    · simpa [ServiceEvent.serviceNo, providedLocally_snoc] using hasked
  | @confirmIgnored n serviceId live =>
    have hknown := hlive.mp live
    constructor
    · simp only [ServiceEvent.serviceNo, providedLocally_snoc, confirmed_snoc]
      exact iff_of_true live (hknown.imp .inl .inl)
    · simpa [ServiceEvent.serviceNo, providedLocally_snoc] using hpresent
  | @answer n live =>
    constructor
    · simpa [ServiceEvent.serviceNo, providedLocally_snoc, confirmed_snoc] using hlive
    · obtain ⟨value, hvalue, -⟩ := live
      simp [ServiceEvent.serviceNo, hvalue]
  | @wait n entry =>
    constructor
    · simpa [ServiceEvent.serviceNo, providedLocally_snoc, confirmed_snoc] using hlive
    · simp [ServiceEvent.serviceNo, entry]
  | provideIgnored | reject | request | status | available | unavailable | provideInd =>
    constructor
    · simpa [ServiceEvent.serviceNo, providedLocally_snoc, confirmed_snoc] using hlive
    · simpa [ServiceEvent.serviceNo, providedLocally_snoc] using hpresent

theorem entryLaw_start (n : ℕ) : EntryLaw n new [] where
  live_iff := by simp [Live, ProvidedLocally, Confirmed]
  present_iff := by simp [ProvidedLocally]

/-- The law of every entry, while the handler has a state. -/
def EntryLaws (r : History) : Prop := ∀ n, r.Holds (EntryLaw n)

theorem entryLaws_start : EntryLaws (Recorded.start new) := by
  rintro n _ ⟨⟩
  exact entryLaw_start n

theorem entryLaws_handleNext (r : History) (e : ServiceEvent) (laws : EntryLaws r) :
    EntryLaws (handleNext r e) :=
  fun n => (laws n).record fun _ _ _ _ law houtcome => law.step (handles_of_handleEvent houtcome)

/-- Every history keeps every entry what its log says. -/
theorem entryLaws_history (events : List ServiceEvent) : EntryLaws (history events) :=
  run_invariant handleNext entryLaws_handleNext entryLaws_start events

end ServiceHandler

end PiVision
