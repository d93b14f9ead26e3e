import PiVision.Service.Application
import PiVision.Service.History

/-!
# What a program provides

A program provides a service when what it makes of its images is there: the colour images with
the camera, those in black and white with the colour images, which may be its own. Nothing keeps
a record of that. It holds because every announcement of a service goes back to a lookup that
has connected, or to a provision by one of the listeners, which goes back to an announcement.
-/

namespace PiVision

open Machine

namespace Program

variable (p : Program) (connected : List ℕ)

/-- The service is one that the program provides, and what it needs has been connected to. -/
def Offers (n : ℕ) : Prop :=
  (n = colorImageService ∧ p.hasFrameCoord = true ∧ cameraService ∈ connected) ∨
    (n = bwImageService ∧ p.hasGrayscaleImage = true ∧
      (colorImageService ∈ connected ∨ p.hasFrameCoord = true ∧ cameraService ∈ connected))

/-- The service has been connected to, or the program has it to offer. -/
def Backs (n : ℕ) : Prop := n ∈ connected ∨ p.Offers connected n

/-- What an event says is backed. -/
def Justifies : ServiceEvent → Prop
  | .serviceAvailableInd n => p.Backs connected n
  | .serviceProvidedInd n | .provideServiceInd n => p.Offers connected n
  | .connectToServiceCfm n _ | .serviceStatusInd .connected n _ => n ∈ connected
  | _ => True

variable {p connected} {connected' : List ℕ} {n : ℕ} {e x : ServiceEvent}

theorem Offers.mono (offers : p.Offers connected n) (more : connected ⊆ connected') :
    p.Offers connected' n := by
  rcases offers with ⟨hn, hcoord, hcamera⟩ | ⟨hn, hgray, hcolor | ⟨hcoord, hcamera⟩⟩
  · exact .inl ⟨hn, hcoord, more hcamera⟩
  · exact .inr ⟨hn, hgray, .inl (more hcolor)⟩
  · exact .inr ⟨hn, hgray, .inr ⟨hcoord, more hcamera⟩⟩

theorem Backs.mono (backs : p.Backs connected n) (more : connected ⊆ connected') :
    p.Backs connected' n :=
  Or.imp (fun mem => more mem) (fun offers => offers.mono more) backs

theorem Justifies.mono (justifies : p.Justifies connected e) (more : connected ⊆ connected') :
    p.Justifies connected' e := by
  cases e with
  | serviceAvailableInd n => exact Backs.mono justifies more
  | serviceProvidedInd n => exact Offers.mono justifies more
  | provideServiceInd n => exact Offers.mono justifies more
  | connectToServiceCfm n serviceId => exact more justifies
  | serviceStatusInd status n socketFd =>
    cases status with
    | connected => exact more justifies
    | disconnected | notFound => trivial
  | _ => trivial

/-- The camera is never offered. -/
theorem mem_of_backs_camera (backs : p.Backs connected cameraService) :
    cameraService ∈ connected := by
  rcases backs with hmem | ⟨hn, -⟩ | ⟨hn, -⟩
  · exact hmem
  · cases hn
  · cases hn

/-- Colour images are offered with the camera. -/
theorem mem_of_backs_colorImage (backs : p.Backs connected colorImageService) :
    colorImageService ∈ connected ∨ p.hasFrameCoord = true ∧ cameraService ∈ connected := by
  rcases backs with hmem | ⟨-, hcoord, hcamera⟩ | ⟨hn, -⟩
  · exact .inl hmem
  · exact .inr ⟨hcoord, hcamera⟩
  · cases hn

end Program

namespace ServiceHandler

variable {h h' : ServiceHandler} {e x : ServiceEvent} {out : List ServiceEvent} {n : ℕ}

/-- An entry becomes live by a provision or a confirmation. -/
theorem Handles.live_cases (step : Handles h e h' out) (live : h'.Live n) :
    h.Live n ∨ e = .serviceProvidedInd n ∨ ∃ serviceId, e = .connectToServiceCfm n serviceId := by
  by_cases hn : n = e.serviceNo
  · subst hn
    cases step with
    | provide => exact .inr (.inl rfl)
    | connect => exact .inr (.inr ⟨_, rfl⟩)
    | ask => exact absurd live (not_live_of_disconnected (services_assign_self ..))
    | _ => exact .inl live
  · obtain ⟨value, hvalue, hlive⟩ := live
    rw [step.services_of_ne hn] at hvalue
    exact .inl ⟨value, hvalue, hlive⟩

/-- The handler raises what is backed, if the event it handles and its entries are. -/
theorem Handles.justifies {p : Program} {connected : List ℕ} (step : Handles h e h' out)
    (hmem : x ∈ out) (event : p.Justifies connected e)
    (entries : ∀ n, h.Live n → p.Backs connected n) : p.Justifies connected x := by
  cases step with
  | provide =>
    obtain rfl | rfl : x = _ ∨ x = _ := by simpa using hmem
    · exact .inr event
    · exact event
  | answer live =>
    obtain rfl := List.mem_singleton.mp hmem
    exact entries _ live
  | connect =>
    obtain rfl := List.mem_singleton.mp hmem
    exact .inl event
  | ask | reject =>
    obtain rfl := List.mem_singleton.mp hmem
    trivial
  | _ => cases hmem

end ServiceHandler

/-- So does the terminal. -/
theorem EthTerm.justifies {p : Program} {connected : List ℕ} {e x : ServiceEvent}
    (hmem : x ∈ (handleEvent e).1) (event : p.Justifies connected e) :
    p.Justifies connected x := by
  cases e with
  | serviceStatusInd status n socketFd =>
    cases status with
    | connected =>
      obtain rfl := List.mem_singleton.mp hmem
      exact event
    | disconnected | notFound =>
      obtain rfl := List.mem_singleton.mp hmem
      trivial
  | _ => cases hmem

/-- It starts a listener for a service that is to be provided. -/
theorem EthTerm.eq_provide_of_mem_jobs {e : ServiceEvent} {n : ℕ}
    (hmem : .serviceListener n ∈ (handleEvent e).2) : e = .provideServiceInd n := by
  cases e with
  | provideServiceInd m =>
    obtain ⟨⟩ := List.mem_singleton.mp hmem
    rfl
  | connectToServiceReq m => cases List.mem_singleton.mp hmem
  | serviceStatusInd status m socketFd =>
    cases status with
    | connected => cases List.mem_singleton.mp hmem
    | disconnected | notFound => cases hmem
  | _ => cases hmem

namespace Application

/-- Everything under way is backed. -/
structure Cascades (p : Program) (a : Application) : Prop where
  frameCoord : a.frameCoord.isSome = p.hasFrameCoord
  grayscaleImage : a.grayscaleImage.isSome = p.hasGrayscaleImage
  entries : ∀ h, a.terminal.service.state = some h → ∀ n, h.Live n → p.Backs a.connected n
  inFlight : ∀ signal ∈ a.terminal.inFlight, p.Justifies a.connected signal.event
  jobs : ∀ n, .serviceListener n ∈ a.terminal.jobs → p.Offers a.connected n

/-- The program provides the service: it listens for its consumers, or is about to. -/
def Provides (a : Application) (n : ℕ) : Prop :=
  .serviceListener n ∈ a.terminal.jobs ∨
    ∃ origin, ⟨.provideServiceInd n, origin⟩ ∈ a.terminal.inFlight

variable {p : Program} {a : Application}

theorem cascades_start (p : Program) : (start p).Cascades p := by
  have hterminal := raiseAll_eq Terminal.start (subscriptions p)
  constructor
  · cases p <;> rfl
  · cases p <;> rfl
  · intro h hstate n live
    rw [start, hterminal] at hstate
    obtain rfl := Option.some.inj hstate
    exact absurd live (ServiceHandler.not_live_of_none rfl)
  · intro signal hmem
    rw [start, hterminal] at hmem
    obtain ⟨e, he, rfl⟩ := List.mem_map.mp hmem
    obtain ⟨n, rfl⟩ := eq_subscribe_of_mem he
    trivial
  · intro n hmem
    rw [start, hterminal] at hmem
    cases hmem

/-- What the listeners raise is backed, if the event they handle is. -/
theorem Cascades.raisedServices (cascades : a.Cascades p) {e x : ServiceEvent}
    (event : p.Justifies a.connected e) (hmem : x ∈ a.raisedServices e) :
    p.Justifies a.connected x := by
  rcases raisedServices_cases hmem with ⟨rfl, rfl, hcoord⟩ | ⟨rfl, rfl, hgray⟩
  · rw [cascades.frameCoord] at hcoord
    exact .inl ⟨rfl, hcoord, Program.mem_of_backs_camera event⟩
  · rw [cascades.grayscaleImage] at hgray
    exact .inr ⟨rfl, hgray, Program.mem_of_backs_colorImage event⟩

theorem Cascades.deliver (cascades : a.Cascades p) {i : ℕ} {signal : Signal}
    (sent : a.terminal.inFlight[i]? = some signal) : (a.step (.deliver i)).Cascades p := by
  have hevent := cascades.inFlight signal (List.mem_of_getElem? sent)
  rw [step_deliver sent, handleServiceEvent, raiseAll_eq]
  constructor
  · rw [← cascades.frameCoord]
    exact Option.isSome_map
  · rw [← cascades.grayscaleImage]
    exact Option.isSome_map
  · intro h' hstate n live
    obtain ⟨h, out, hbefore, houtcome, -⟩ := state_record_eq_some hstate
    rcases (ServiceHandler.handles_of_handleEvent houtcome).live_cases live with
      hlive | hprovided | ⟨serviceId, hconfirmed⟩
    · exact cascades.entries h hbefore n hlive
    · rw [hprovided] at hevent
      exact .inr hevent
    · rw [hconfirmed] at hevent
      exact .inl hevent
  · intro signal' hmem
    rcases List.mem_append.mp hmem with hterminal | hraised
    · rcases Terminal.mem_inFlight_deliver.mp hterminal with hrest | ⟨-, hhandler | hterm⟩
      · exact cascades.inFlight signal' (List.mem_of_mem_eraseIdx hrest)
      · obtain ⟨h, h', out, hstate, hstep, hout⟩ := Terminal.handles_of_mem_raisedFor hhandler
        exact hstep.justifies hout hevent (cascades.entries h hstate)
      · exact EthTerm.justifies hterm hevent
    · obtain ⟨x, hx, rfl⟩ := List.mem_map.mp hraised
      exact cascades.raisedServices hevent hx
  · intro n hmem
    rcases List.mem_append.mp hmem with hbefore | hstarted
    · exact cascades.jobs n hbefore
    · rw [EthTerm.eq_provide_of_mem_jobs hstarted] at hevent
      exact hevent

/-- A lookup that connects has the service connected to when it reports. -/
theorem justifies_execute {n : ℕ} {answered : ℕ → Bool} {connectToServer : Int32}
    {connected : List ℕ} :
    p.Justifies
      (if (EthTermConnectService.outcome answered connectToServer).1 = .connected then
        connected ++ [n] else connected)
      (EthTermConnectService.execute n answered connectToServer) := by
  rw [EthTermConnectService.execute]
  cases hstatus : (EthTermConnectService.outcome answered connectToServer).1 with
  | connected =>
    rw [if_pos rfl]
    exact List.mem_append_right _ (List.mem_singleton_self n)
  | disconnected | notFound => trivial

/-- A step of a job of the terminal: what it raises is backed by then, and it listens to
nothing new. -/
theorem Cascades.job (cascades : a.Cascades p) {terminal : Terminal} {connected : List ℕ}
    (more : a.connected ⊆ connected) (service : terminal.service = a.terminal.service)
    (inFlight : ∀ signal ∈ terminal.inFlight,
      signal ∈ a.terminal.inFlight ∨ p.Justifies connected signal.event)
    (jobs : ∀ n, .serviceListener n ∈ terminal.jobs → .serviceListener n ∈ a.terminal.jobs) :
    Cascades p { a with terminal := terminal, connected := connected } where
  frameCoord := cascades.frameCoord
  grayscaleImage := cascades.grayscaleImage
  entries h hstate n live := by
    have hbefore : a.terminal.service.state = some h := service ▸ hstate
    exact (cascades.entries h hbefore n live).mono more
  inFlight signal hmem := by
    rcases inFlight signal hmem with hbefore | hjustified
    · exact (cascades.inFlight signal hbefore).mono more
    · exact hjustified
  jobs n hmem := (cascades.jobs n (jobs n hmem)).mono more

theorem Cascades.lookUp (cascades : a.Cascades p) (i : ℕ) (answered : ℕ → Bool)
    (connectToServer : Int32) : (a.step (.lookUp i answered connectToServer)).Cascades p := by
  simp only [step]
  split
  · rename_i n hjob
    have hterminal : a.terminal.step (.lookUp i answered connectToServer) =
        Terminal.raise { a.terminal with jobs := a.terminal.jobs.eraseIdx i }
          (EthTermConnectService.execute n answered connectToServer)
          (.lookup n (EthTermConnectService.outcome answered connectToServer).1) := by
      simp only [Terminal.step, hjob]
    have hmore : a.connected ⊆
        if (EthTermConnectService.outcome answered connectToServer).1 = .connected then
          a.connected ++ [n] else a.connected := by
      split
      · exact List.subset_append_left _ _
      · exact List.Subset.refl _
    refine cascades.job hmore ?_ ?_ ?_
    · rw [hterminal]
      rfl
    · intro signal hmem
      rw [hterminal, Terminal.mem_inFlight_raise] at hmem
      rcases hmem with hbefore | rfl
      · exact .inl hbefore
      · exact .inr justifies_execute
    · intro m hmem
      rw [hterminal] at hmem
      exact List.mem_of_mem_eraseIdx hmem
  · exact cascades

theorem Cascades.accept (cascades : a.Cascades p) (i : ℕ) (clientSocket : Int32) :
    (a.step (.accept i clientSocket)).Cascades p := by
  have hsame : a.connected ⊆ a.connected := List.Subset.refl _
  simp only [step, Terminal.step]
  split
  · refine cascades.job hsame rfl (fun _ hmem => .inl hmem) fun m hmem => ?_
    rcases List.mem_append.mp hmem with hbefore | hnew
    · exact hbefore
    · cases List.mem_singleton.mp hnew
  · exact cascades

theorem Cascades.endExecute (cascades : a.Cascades p) (i : ℕ) :
    (a.step (.endExecute i)).Cascades p := by
  have hsame : a.connected ⊆ a.connected := List.Subset.refl _
  simp only [step, Terminal.step]
  split
  · refine cascades.job hsame rfl (fun signal hmem => ?_)
      fun m hmem => List.mem_of_mem_eraseIdx hmem
    rcases Terminal.mem_inFlight_raise.mp hmem with hbefore | rfl
    · exact .inl hbefore
    · exact .inr trivial
  · exact cascades

/-- **One step** of a program. -/
theorem cascades_step (a : Application) (action : ApplicationAction) (cascades : a.Cascades p) :
    (a.step action).Cascades p := by
  cases action with
  | deliver i =>
    cases hsent : a.terminal.inFlight[i]? with
    | some signal => exact cascades.deliver hsent
    | none =>
      simp only [step, hsent]
      exact cascades
  | deliverApplication i =>
    simp only [step]
    split
    · refine ⟨?_, ?_, cascades.entries, cascades.inFlight, cascades.jobs⟩
      · rw [← cascades.frameCoord]
        exact Option.isSome_map
      · rw [← cascades.grayscaleImage]
        exact Option.isSome_map
    · exact cascades
  | lookUp i answered connectToServer => exact cascades.lookUp i answered connectToServer
  | accept i clientSocket => exact cascades.accept i clientSocket
  | endExecute i => exact cascades.endExecute i
  | receive i data =>
    simp only [step]
    split
    · exact ⟨cascades.frameCoord, cascades.grayscaleImage, cascades.entries, cascades.inFlight,
        cascades.jobs⟩
    · exact cascades

theorem cascades_run (p : Program) (actions : List ApplicationAction) :
    (run step (start p) actions).Cascades p :=
  run_invariant step cascades_step (cascades_start p) actions

/-- **Nothing is provided before it can be made.** In every run of a program, whatever the order
of the deliveries and of the jobs' steps, a service that it provides is one of its own: the
colour images, behind a lookup that has connected to the camera, or those in black and white,
behind a lookup that has connected to the colour images, or to the camera where the program
makes the colour images itself. -/
theorem offers_of_provides (p : Program) (actions : List ApplicationAction) (n : ℕ)
    (provides : (run step (start p) actions).Provides n) :
    p.Offers (run step (start p) actions).connected n := by
  have cascades := cascades_run p actions
  rcases provides with hjob | ⟨origin, hsignal⟩
  · exact cascades.jobs n hjob
  · exact cascades.inFlight _ hsignal

/-- The camera is found, and the services follow one from the other. -/
def fromCamera : List ApplicationAction :=
  [.deliver 0, .deliver 1, .lookUp 0 (fun _ => true) 5, .deliver 1, .deliver 1, .deliver 1,
    .deliver 1, .deliver 1, .deliver 2]

theorem offers_fromCamera :
    Program.full.Offers (run step (start .full) fromCamera).connected bwImageService :=
  offers_of_provides .full fromCamera bwImageService (.inr ⟨.application, by decide⟩)

end Application

end PiVision
