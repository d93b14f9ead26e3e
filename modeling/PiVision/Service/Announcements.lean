import PiVision.Service.Confirmations

/-!
# What an announcement of a lost service goes back to

A service is announced as unavailable four steps behind the event that it goes back to:
a job reports its status, the terminal turns the status into a rejection, and the
handler turns the rejection into the announcement, whatever the entry. On the way it is
forgotten on which side of the service the connection was that has ended, so the last
consumer to leave a local service takes it off the air.
-/

namespace PiVision

open Machine

/-- The service that an event reports the loss of. -/
def ServiceEvent.lossOf : ServiceEvent → Option ℕ
  | connectToServiceRej n | serviceStatusInd .disconnected n _ | serviceStatusInd .notFound n _ =>
    some n
  | _ => none

/-- What a service may be announced as unavailable for: a lookup that has not reached its
provider, or the end of a client-side connection to it. -/
def Origin.Accounts : Origin → ℕ → Prop
  | lookup m status, n => m = n ∧ status ≠ .connected
  | connection .client m, n => m = n
  | _, _ => False

/-- The announcement goes back to such a reason for its service, and not to the end of a
consumer's connection to a service of this process. -/
def Announcement.Justified (a : Announcement) : Prop :=
  a.origin.Accounts a.serviceNo ∧
    ¬ (a.entry = some ServiceHandler.localService ∧ ∃ n, a.origin = .connection .server n)

theorem Origin.not_accounts_server {n m : ℕ} : ¬ (connection .server m).Accounts n := id

theorem Announcement.justified_of_accounts {a : Announcement}
    (accounts : a.origin.Accounts a.serviceNo) : a.Justified := by
  refine ⟨accounts, ?_⟩
  rintro ⟨-, n, horigin⟩
  rw [horigin] at accounts
  exact Origin.not_accounts_server accounts

namespace ServiceHandler

variable {h h' : ServiceHandler} {e x : ServiceEvent} {out : List ServiceEvent} {n : ℕ}

/-- The handler reports no loss to the terminal. -/
theorem Handles.lossOf_eq_none (step : Handles h e h' out) (hmem : x ∈ out) : x.lossOf = none := by
  cases step with
  | provide =>
    obtain rfl | rfl : x = _ ∨ x = _ := by simpa using hmem
    · rfl
    · rfl
  | ask | answer | connect | reject =>
    obtain rfl := List.mem_singleton.mp hmem
    rfl
  | _ => cases hmem

/-- A service is announced as unavailable for a rejection only. -/
theorem Handles.eq_reject (step : Handles h e h' out) (hmem : .serviceUnavailableInd n ∈ out) :
    e = .connectToServiceRej n := by
  cases step with
  | reject =>
    obtain ⟨⟩ := List.mem_singleton.mp hmem
    rfl
  | provide | ask | answer | connect => simp at hmem
  | _ => cases hmem

end ServiceHandler

namespace EthTerm

/-- The terminal passes on the loss it was told of. -/
theorem lossOf_of_mem {e x : ServiceEvent} {n : ℕ} (hmem : x ∈ (handleEvent e).1)
    (hloss : x.lossOf = some n) : e.lossOf = some n := by
  cases e with
  | serviceStatusInd status m socketFd =>
    cases status with
    | connected =>
      obtain rfl := List.mem_singleton.mp hmem
      cases hloss
    | disconnected | notFound =>
      obtain rfl := List.mem_singleton.mp hmem
      exact hloss
  | _ => cases hmem

end EthTerm

namespace Terminal

variable {t t' : Terminal} {signal : Signal}

theorem mem_announcements {service : ServiceHandler.History} {origin : Origin}
    {raised : List ServiceEvent} {a : Announcement} :
    a ∈ announcements service origin raised ↔
      ∃ n, .serviceUnavailableInd n ∈ raised ∧
        a = ⟨n, origin, service.state.bind fun h => h.services n⟩ := by
  rw [announcements, List.mem_filterMap]
  constructor
  · rintro ⟨e, he, ha⟩
    cases e with
    | serviceUnavailableInd n => exact ⟨n, he, (Option.some.inj ha).symm⟩
    | _ => cases ha
  · rintro ⟨n, he, rfl⟩
    exact ⟨_, he, rfl⟩

/-- No consumer's connection ends with this action. -/
def NoConsumerLost (t : Terminal) (action : TerminalAction) : Prop :=
  ∀ i c, action = .endExecute i → t.jobs[i]? = some (.connection c) → c.connType = .client

/-! ## Without the end of a consumer's connection -/

/-- Every loss reported or announced is accounted for. -/
structure Accounted (t : Terminal) : Prop where
  inFlight : ∀ signal ∈ t.inFlight, ∀ n, signal.event.lossOf = some n → signal.origin.Accounts n
  announced : ∀ a ∈ t.announced, a.Justified

theorem accounted_start : start.Accounted where
  inFlight := by simp [start]
  announced := by simp [start]

theorem Accounted.raise (inv : t.Accounted) {e : ServiceEvent} {origin : Origin}
    (accounts : ∀ n, e.lossOf = some n → origin.Accounts n) : (t.raise e origin).Accounted where
  announced := inv.announced
  inFlight := by
    intro x hx n hloss
    obtain hold | rfl := mem_inFlight_raise.mp hx
    · exact inv.inFlight x hold n hloss
    · exact accounts n hloss

theorem Accounted.withJobs (inv : t.Accounted) (jobs : List TerminalJob) :
    { t with jobs := jobs }.Accounted := ⟨inv.inFlight, inv.announced⟩

theorem Accounted.deliver (inv : t.Accounted) {i : ℕ} (sent : t.inFlight[i]? = some signal) :
    (t.deliver signal (t.inFlight.eraseIdx i)).Accounted := by
  have hsignal := inv.inFlight signal (List.mem_of_getElem? sent)
  constructor
  · intro x hx n hloss
    obtain hrest | ⟨horigin, hhandler | hterm⟩ := mem_inFlight_deliver.mp hx
    · exact inv.inFlight x (List.mem_of_mem_eraseIdx hrest) n hloss
    · obtain ⟨h, h', out, -, step, hout⟩ := handles_of_mem_raisedFor hhandler
      rw [step.lossOf_eq_none hout] at hloss
      cases hloss
    · rw [horigin]
      exact hsignal n (EthTerm.lossOf_of_mem hterm hloss)
  · intro a ha
    obtain hold | hnew := List.mem_append.mp ha
    · exact inv.announced a hold
    · obtain ⟨n, hraised, rfl⟩ := mem_announcements.mp hnew
      obtain ⟨h, h', out, -, step, hout⟩ := handles_of_mem_raisedFor hraised
      exact Announcement.justified_of_accounts
        (hsignal n (by rw [step.eq_reject hout]; rfl))

/-- A lookup reports the loss of its own service, if it has not reached it. -/
theorem accounts_lookup {m : ℕ} (answered : ℕ → Bool) (connectToServer : Int32) {n : ℕ}
    (hloss : (EthTermConnectService.execute m answered connectToServer).lossOf = some n) :
    (Origin.lookup m (EthTermConnectService.outcome answered connectToServer).1).Accounts n := by
  revert hloss
  unfold EthTermConnectService.execute
  cases (EthTermConnectService.outcome answered connectToServer).1 with
  | connected => rintro ⟨⟩
  | disconnected | notFound =>
    intro hloss
    exact ⟨Option.some.inj hloss, by simp⟩

theorem Accounted.moves (inv : t.Accounted) {action : TerminalAction} (move : Moves t action t')
    (kept : NoConsumerLost t action) : t'.Accounted := by
  cases move with
  | subscribe => exact inv.raise (by rintro n ⟨⟩)
  | provide => exact inv.raise (by rintro n ⟨⟩)
  | deliver sent => exact inv.deliver sent
  | lookUp job => exact (inv.withJobs _).raise fun n => accounts_lookup _ _
  | accept job => exact inv.withJobs _
  | @endExecute i c job =>
    refine (inv.withJobs _).raise fun n hloss => ?_
    rw [kept i c rfl job]
    exact Option.some.inj hloss
  | idle => exact inv

/-! ## With the end of a consumer's connection -/

/-- The end of a consumer's connection has been announced as the loss of the service, or
will be. -/
def Owed (t : Terminal) : Prop :=
  (∃ signal ∈ t.inFlight, ∃ n m, signal.event.lossOf = some n ∧
    signal.origin = .connection .server m) ∨
  ∃ a ∈ t.announced, ∃ m, a.origin = .connection .server m

/-- The delivery of a report of a loss passes it on, or announces it. -/
theorem owed_deliver (rest : List Signal) (live : t.service.state ≠ none) {n m : ℕ}
    (loss : signal.event.lossOf = some n) (origin : signal.origin = .connection .server m) :
    (∃ x ∈ (t.deliver signal rest).inFlight, x.event = .connectToServiceRej n ∧
      x.origin = .connection .server m) ∧ signal.event ≠ .connectToServiceRej n ∨
    (∃ a ∈ (t.deliver signal rest).announced, ∃ k, a.origin = .connection .server k) := by
  obtain ⟨h, hh⟩ := Option.ne_none_iff_exists'.mp live
  obtain ⟨e, eOrigin⟩ := signal
  cases e with
  | connectToServiceRej k =>
    refine .inr ⟨⟨k, eOrigin, h.services k⟩, List.mem_append_right _ ?_, m, origin⟩
    refine mem_announcements.mpr ⟨k, ?_, by simp [hh]⟩
    simp [raisedFor, hh, ServiceHandler.raisedBy, ServiceHandler.handleEvent]
  | serviceStatusInd status k socketFd =>
    cases status with
    | connected => cases loss
    | disconnected | notFound =>
      obtain rfl : k = n := Option.some.inj loss
      refine .inl ⟨⟨⟨.connectToServiceRej k, eOrigin⟩, ?_, rfl, origin⟩, by simp⟩
      exact mem_inFlight_deliver.mpr (.inr ⟨rfl, .inr (by simp [EthTerm.handleEvent])⟩)
  | _ => cases loss

theorem owed_raise {e : ServiceEvent} {origin : Origin} {jobs : List TerminalJob} (owed : t.Owed) :
    ({ t with jobs := jobs }.raise e origin).Owed := by
  obtain ⟨signal, hmem, hsignal⟩ | hannounced := owed
  · exact .inl ⟨signal, mem_inFlight_raise.mpr (.inl hmem), hsignal⟩
  · exact .inr hannounced

theorem owed_moves (live : t.service.state ≠ none) (owed : t.Owed) {action : TerminalAction}
    (move : Moves t action t') : t'.Owed := by
  cases move with
  | subscribe => exact owed_raise owed
  | provide => exact owed_raise owed
  | @deliver i signal sent =>
    obtain ⟨x, hmem, n, m, hloss, horigin⟩ | ⟨a, ha, hserver⟩ := owed
    swap
    · exact .inr ⟨a, List.mem_append_left _ ha, hserver⟩
    obtain ⟨j, hj⟩ := List.mem_iff_getElem?.mp hmem
    by_cases hij : j = i
    · -- the report itself is delivered
      subst hij
      obtain rfl := Option.some.inj (sent.symm.trans hj)
      obtain ⟨⟨y, hy, hevent, hserver⟩, -⟩ | hannounced := owed_deliver _ live hloss horigin
      · exact .inl ⟨y, hy, n, m, by rw [hevent]; rfl, hserver⟩
      · exact .inr hannounced
    · refine .inl ⟨x, mem_inFlight_deliver.mpr (.inl ?_), n, m, hloss, horigin⟩
      exact List.mem_eraseIdx_iff_getElem?.mpr ⟨j, hij, hj⟩
  | lookUp job => exact owed_raise owed
  | accept job => exact owed
  | endExecute job => exact owed_raise owed
  | idle => exact owed

/-- The end of a consumer's connection is owed from then on. -/
theorem owed_of_consumerLost {action : TerminalAction} (lost : ¬ NoConsumerLost t action) :
    (t.step action).Owed := by
  simp only [NoConsumerLost, not_forall] at lost
  obtain ⟨i, c, rfl, hjob, hserver⟩ := lost
  have hside : c.connType = .server := by
    cases hside : c.connType with
    | server => rfl
    | client => exact absurd hside hserver
  simp only [step, hjob]
  refine .inl ⟨_, mem_inFlight_raise.mpr (.inr rfl), c.serviceNo, c.serviceNo, rfl, ?_⟩
  rw [hside]

/-- What is owed, at most two deliveries announce. -/
theorem announced_of_owed (inv : t.Requested) (owed : t.Owed) :
    ∃ deliveries : List ℕ, ∃ a ∈ (run step t (deliveries.map .deliver)).announced,
      ∃ m, a.origin = .connection .server m := by
  obtain ⟨x, hmem, n, m, hloss, horigin⟩ | hannounced := owed
  swap
  · exact ⟨[], hannounced⟩
  obtain ⟨i, hi⟩ := List.mem_iff_getElem?.mp hmem
  have hfirst : t.step (.deliver i) = t.deliver x (t.inFlight.eraseIdx i) := by
    simp only [step, hi]
  have hinv := requested_step t (.deliver i) inv
  rw [hfirst] at hinv
  obtain ⟨⟨y, hy, hevent, hserver⟩, -⟩ | hannounced :=
    owed_deliver (t.inFlight.eraseIdx i) inv.live hloss horigin
  · obtain ⟨j, hj⟩ := List.mem_iff_getElem?.mp hy
    have hsecond : (t.deliver x (t.inFlight.eraseIdx i)).step (.deliver j) =
        (t.deliver x (t.inFlight.eraseIdx i)).deliver y
          ((t.deliver x (t.inFlight.eraseIdx i)).inFlight.eraseIdx j) := by
      simp only [step, hj]
    refine ⟨[i, j], ?_⟩
    simp only [List.map_cons, List.map_nil, run_cons, run_nil, hfirst, hsecond]
    -- the second delivery is that of the rejection, which is announced
    obtain ⟨-, hno⟩ | hannounced :=
      owed_deliver _ hinv.live (by rw [hevent]; rfl) hserver
    · exact absurd hevent hno
    · exact hannounced
  · refine ⟨[i], ?_⟩
    simpa only [List.map_cons, List.map_nil, run_cons, run_nil, hfirst] using hannounced

/-- Every announcement of a lost service is justified, also when what is in flight has
been delivered, along exactly the runs in which no consumer's connection ends. -/
theorem announcements_justified_iff (actions : List TerminalAction) :
    (∀ deliveries : List ℕ,
      ∀ a ∈ (runFrom (actions ++ deliveries.map .deliver)).announced, a.Justified) ↔
    Along step NoConsumerLost start actions := by
  constructor
  · intro justified
    rw [along_iff_forall_split]
    rintro pre action post rfl
    by_contra hlost
    have hstep : ∀ t action, t.Requested ∧ t.Owed →
        (step t action).Requested ∧ (step t action).Owed :=
      fun t action ⟨inv, owed⟩ =>
        ⟨requested_step t action inv, owed_moves inv.live owed (moves_step t action)⟩
    have howed : (run step start (pre ++ action :: post)).Requested ∧
        (run step start (pre ++ action :: post)).Owed := by
      rw [run_append, run_cons]
      exact run_invariant step hstep
        ⟨requested_step _ _ (requested_run pre), owed_of_consumerLost hlost⟩ post
    obtain ⟨deliveries, a, ha, m, horigin⟩ := announced_of_owed howed.1 howed.2
    rw [← run_append] at ha
    have hjustified := (justified deliveries a ha).1
    rw [horigin] at hjustified
    exact Origin.not_accounts_server hjustified
  · intro along deliveries
    have hinv : (run step start actions).Accounted :=
      run_invariant_along (fun t action inv kept => inv.moves (moves_step t action) kept)
        accounted_start along
    rw [runFrom, run_append]
    have hdeliver : ∀ t i, Accounted t → (t.step (.deliver i)).Accounted := by
      intro t i inv
      exact inv.moves (moves_step t (.deliver i)) (by rintro j c ⟨⟩)
    clear along
    generalize run step start actions = t at hinv
    induction deliveries generalizing t with
    | nil => exact hinv.announced
    | cons i deliveries ih => exact ih _ (hdeliver t i hinv)

/-- A service is provided here, a consumer connects and leaves again. -/
theorem announcements_justified_broken :
    ¬ ∀ a ∈ (runFrom [.provide 7, .deliver 0, .deliver 1, .accept 0 5, .endExecute 1, .deliver 1,
      .deliver 1]).announced, a.Justified := by
  intro justified
  have hmem : (⟨7, .connection .server 7, some ServiceHandler.localService⟩ : Announcement) ∈
      (runFrom [.provide 7, .deliver 0, .deliver 1, .accept 0 5, .endExecute 1, .deliver 1,
        .deliver 1]).announced := by decide
  exact Origin.not_accounts_server (justified _ hmem).1

end Terminal

end PiVision
