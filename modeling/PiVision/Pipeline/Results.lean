import PiVision.ImageData.DataTL
import PiVision.Pipeline.Normalizer
import PiVision.Pipeline.AlgoCtrl
import PiVision.Lib.Run

/-!
# What becomes of a result

When the worker has completed `algorithms[0]`, each callback of algorithm control hands its
output to the data transport, which sends it or counts it as dropped. The algorithm leaves
`ALGO_COMPLETE` when the next frame is scheduled and not before, so a result is handed over
in every round until a frame comes.

The worker may complete the algorithm at any moment, also between the two tests of the
callback. The results are numbered from 1 on, and what has become of them is kept by their
numbers.
-/

namespace PiVision

open Machine

/-- The modules that a result passes through. `midway` is set while algorithm control is in
its callback, behind the first test. -/
structure ResultFlow where
  provider : ImageProviderState
  algoCtrl : AlgoCtrlState
  midway : Bool
  outputData : GrayscaleImage
  dataTL : DataTL
  connected : Bool
  completed : ℕ
  transmitted : List ℕ
  dropped : List ℕ

/-- What can happen: the callback of algorithm control goes on to the end of its next test,
the image provider's is called with the frame that the client hands out, or the data
transport's with what `SERVER_receive` returns, a client is accepted, or the worker has
completed its job. -/
inductive ResultAction
  | algoCtrl
  | provider (frame : Option (List.Vector UInt8 colorImageSize))
  | dataTL (received : Option (List UInt8))
  | accept
  | worker (outputData : GrayscaleImage)

namespace ResultFlow

/-- Before the first round. -/
def start : ResultFlow := ⟨.init, .init, false, .replicate _ 0, .init, false, 0, [], []⟩

/-- The callback of algorithm control as far as its second test. A result that has been put
on the stream is recorded, and so is one that `numDroppedFrames` has been increased for. -/
def offer (s : ResultFlow) : ResultFlow :=
  if s.algoCtrl.algoState = .complete then
    let (dataTL, sent) := s.dataTL.sendGrayscaleImage s.outputData.toList s.connected
    { s with
      midway := true
      dataTL := dataTL
      transmitted := if sent = [] then s.transmitted else s.transmitted ++ [s.completed]
      dropped :=
        if dataTL.numDroppedFrames = s.dataTL.numDroppedFrames then s.dropped
        else s.dropped ++ [s.completed] }
  else { s with midway := true }

/-- The rest of the callback. -/
def obtain (s : ResultFlow) : ResultFlow :=
  let (size, recBuffer) := s.provider.getPixelData s.algoCtrl.recBuffer colorImageSize
  if colorImageSize = size then
    if s.algoCtrl.algoState ≠ .running then
      { s with midway := false, algoCtrl := ⟨recBuffer, .running⟩ }
    else { s with midway := false, algoCtrl := ⟨recBuffer, s.algoCtrl.algoState⟩ }
  else { s with midway := false, algoCtrl := ⟨recBuffer, s.algoCtrl.algoState⟩ }

/-- The end of `IMGNORMALGO_exec`. -/
def complete (s : ResultFlow) (outputData : GrayscaleImage) : ResultFlow :=
  if s.algoCtrl.algoState = .running then
    { s with
      algoCtrl := { s.algoCtrl with algoState := .complete }
      outputData := outputData
      completed := s.completed + 1 }
  else s

/-- A step. The other callbacks are not called while algorithm control is in its own. -/
def step (s : ResultFlow) : ResultAction → ResultFlow
  | .algoCtrl => if s.midway then s.obtain else s.offer
  | .provider frame =>
    if s.midway then s
    else
      match frame with
      | some frame => { s with provider := ⟨frame, colorImageSize⟩ }
      | none => { s with provider := ⟨s.provider.recBuffer, 0⟩ }
  | .dataTL received => if s.midway then s else { s with dataTL := s.dataTL.run received }
  | .accept => if s.midway then s else { s with connected := true }
  | .worker outputData => s.complete outputData

/-! ## The law -/

/-- No result has been transmitted twice or dropped twice, and no more have been counted as
dropped than there are. -/
structure OnceEach (s : ResultFlow) : Prop where
  transmitted : s.transmitted.Nodup
  dropped : s.dropped.Nodup
  numDroppedFrames : s.dataTL.numDroppedFrames.toNat ≤ s.completed

/-- A result that algorithm control hands over has not been transmitted before, if the data
transport would send it, and not been dropped before, if it would drop it. -/
def OffersAfresh (s : ResultFlow) : ResultAction → Prop
  | .algoCtrl => s.midway = false → s.algoCtrl.algoState = .complete →
    (s.dataTL.state = .sendData → s.connected = true → s.completed ∉ s.transmitted) ∧
      (s.dataTL.state = .waitForAck → s.completed ∉ s.dropped)
  | _ => True

/-- When algorithm control hands a result over, there is a frame to schedule. -/
def FrameAtHand (s : ResultFlow) : ResultAction → Prop
  | .algoCtrl => s.midway = false → s.algoCtrl.algoState = .complete →
    s.provider.recBufferSize = colorImageSize
  | _ => True

instance (s : ResultFlow) (action : ResultAction) : Decidable (s.FrameAtHand action) :=
  match action with
  | .algoCtrl => inferInstanceAs (Decidable (_ → _ → _))
  | .provider _ | .dataTL _ | .accept | .worker _ => .isTrue trivial

/-! ## The steps -/

variable {s : ResultFlow}

theorem offer_of_other (other : s.algoCtrl.algoState ≠ .complete) :
    s.offer = { s with midway := true } := if_neg other

/-- A result that is handed over is sent, dropped, or neither without a client. -/
theorem offer_of_complete (complete : s.algoCtrl.algoState = .complete) :
    (s.dataTL.state = .sendData ∧ s.connected = true ∧ s.offer = { s with
      midway := true
      dataTL := { s.dataTL with state := .waitForAck }
      transmitted := s.transmitted ++ [s.completed] }) ∨
    (s.dataTL.state = .sendData ∧ s.connected = false ∧ s.offer = { s with
      midway := true
      dataTL := { s.dataTL with numDroppedFramesAck := s.dataTL.numDroppedFramesAck + 1 } }) ∨
    (s.dataTL.state = .waitForAck ∧ s.offer = { s with
      midway := true
      dataTL := { s.dataTL with numDroppedFrames := s.dataTL.numDroppedFrames + 1 }
      dropped := s.dropped ++ [s.completed] }) := by
  cases hstate : s.dataTL.state with
  | sendData =>
    cases hconnected : s.connected with
    | true =>
      refine .inl ⟨rfl, rfl, ?_⟩
      have hsent : DataTL.bufToSend s.outputData.toList ≠ [] := by
        simp [DataTL.bufToSend, Framing.encodeFrame, bufHeaderSize, LittleEndian.leBytes]
      simp [offer, complete, DataTL.sendGrayscaleImage, hstate, hconnected, hsent]
    | false =>
      refine .inr (.inl ⟨rfl, rfl, ?_⟩)
      simp [offer, complete, DataTL.sendGrayscaleImage, hstate, hconnected]
  | waitForAck =>
    refine .inr (.inr ⟨rfl, ?_⟩)
    simp [offer, complete, DataTL.sendGrayscaleImage, hstate]

theorem obtain_eq (s : ResultFlow) :
    s.obtain = { s with midway := false, algoCtrl := (s.algoCtrl.run s.provider).1 } := by
  simp only [obtain, AlgoCtrlState.run]
  split
  · split <;> rfl
  · rfl

/-- Its two parts, with no step in between, are the callback of algorithm control. -/
theorem obtain_offer (s : ResultFlow) :
    s.offer.obtain.algoCtrl = (s.algoCtrl.run s.provider).1 ∧
      (s.algoCtrl.algoState = .complete ↔ (s.algoCtrl.run s.provider).2.sendsOutput = true) := by
  have hframe : s.offer.algoCtrl = s.algoCtrl ∧ s.offer.provider = s.provider := by
    by_cases hcomplete : s.algoCtrl.algoState = .complete
    · rcases offer_of_complete hcomplete with ⟨-, -, h⟩ | ⟨-, -, h⟩ | ⟨-, h⟩ <;> rw [h] <;>
        exact ⟨rfl, rfl⟩
    · rw [offer_of_other hcomplete]
      exact ⟨rfl, rfl⟩
  refine ⟨by rw [obtain_eq, hframe.1, hframe.2], ?_⟩
  simp only [AlgoCtrlState.run]
  split
  · split <;> simp
  · simp

/-- The second test does not complete an algorithm. -/
theorem algoState_obtain (s : ResultFlow) :
    s.obtain.algoCtrl.algoState = .complete →
      s.algoCtrl.algoState = .complete ∧ s.provider.recBufferSize ≠ colorImageSize := by
  intro hcomplete
  rw [obtain_eq] at hcomplete
  by_cases hfull : s.provider.recBufferSize = colorImageSize
  · rw [AlgoCtrlState.run_of_full _ hfull] at hcomplete
    cases hcomplete
  · refine ⟨?_, hfull⟩
    simp only [AlgoCtrlState.run] at hcomplete
    split at hcomplete
    · split at hcomplete
      · cases hcomplete
      · exact hcomplete
    · exact hcomplete

theorem complete_of_running (running : s.algoCtrl.algoState = .running)
    (outputData : GrayscaleImage) :
    s.complete outputData = { s with
      algoCtrl := { s.algoCtrl with algoState := .complete }
      outputData := outputData
      completed := s.completed + 1 } := if_pos running

theorem complete_of_other (other : s.algoCtrl.algoState ≠ .running)
    (outputData : GrayscaleImage) : s.complete outputData = s := if_neg other

theorem numDroppedFrames_run (tl : DataTL) (received : Option (List UInt8)) :
    (tl.run received).numDroppedFrames = tl.numDroppedFrames := by
  cases received with
  | none => rfl
  | some received =>
    simp only [DataTL.run]
    split <;> rfl

/-- A step leaves the dropped results and their counter alone, or adds one to both. -/
theorem dropped_step (s : ResultFlow) (action : ResultAction) :
    ((s.step action).dataTL.numDroppedFrames = s.dataTL.numDroppedFrames ∧
      (s.step action).dropped = s.dropped) ∨
    ((s.step action).dataTL.numDroppedFrames = s.dataTL.numDroppedFrames + 1 ∧
      (s.step action).dropped = s.dropped ++ [s.completed]) := by
  cases action with
  | algoCtrl =>
    cases hmidway : s.midway with
    | true =>
      rw [step, if_pos hmidway, obtain_eq]
      exact .inl ⟨rfl, rfl⟩
    | false =>
      rw [step, if_neg (Bool.eq_false_iff.mp hmidway)]
      by_cases hcomplete : s.algoCtrl.algoState = .complete
      · rcases offer_of_complete hcomplete with ⟨-, -, h⟩ | ⟨-, -, h⟩ | ⟨-, h⟩ <;> rw [h]
        · exact .inl ⟨rfl, rfl⟩
        · exact .inl ⟨rfl, rfl⟩
        · exact .inr ⟨rfl, rfl⟩
      · rw [offer_of_other hcomplete]
        exact .inl ⟨rfl, rfl⟩
  | provider frame =>
    simp only [step]
    split
    · exact .inl ⟨rfl, rfl⟩
    · split <;> exact .inl ⟨rfl, rfl⟩
  | dataTL received =>
    simp only [step]
    split
    · exact .inl ⟨rfl, rfl⟩
    · exact .inl ⟨numDroppedFrames_run s.dataTL received, rfl⟩
  | accept =>
    simp only [step]
    split <;> exact .inl ⟨rfl, rfl⟩
  | worker outputData =>
    simp only [step, complete]
    split <;> exact .inl ⟨rfl, rfl⟩

/-! ## The records -/

/-- A record of results, each of which has been completed and is in it once. -/
structure Recorded (completed : ℕ) (results : List ℕ) : Prop where
  nodup : results.Nodup
  range : ∀ n ∈ results, 1 ≤ n ∧ n ≤ completed

theorem recorded_nil (completed : ℕ) : Recorded completed [] := ⟨List.nodup_nil, nofun⟩

namespace Recorded

variable {completed : ℕ} {results : List ℕ}

theorem next (recorded : Recorded completed results) : Recorded (completed + 1) results where
  nodup := recorded.nodup
  range n hn := ⟨(recorded.range n hn).1, (recorded.range n hn).2.trans (Nat.le_succ _)⟩

theorem add (recorded : Recorded completed results) (pos : 1 ≤ completed)
    (fresh : completed ∉ results) : Recorded completed (results ++ [completed]) where
  nodup := List.nodup_append.mpr ⟨recorded.nodup, List.nodup_singleton _, by
    intro a ha b hb
    rw [List.mem_singleton.mp hb]
    rintro rfl
    exact fresh ha⟩
  range n hn := by
    rcases List.mem_append.mp hn with hold | hnew
    · exact recorded.range n hold
    · rw [List.mem_singleton.mp hnew]
      exact ⟨pos, le_refl _⟩

theorem next_not_mem (recorded : Recorded completed results) : completed + 1 ∉ results := by
  intro hmem
  have := (recorded.range _ hmem).2
  omega

/-- There are no more results in a record than have been completed. -/
theorem length_le (recorded : Recorded completed results) : results.length ≤ completed := by
  have hsubset : results ⊆ List.range' 1 completed := by
    intro n hn
    have hrange := recorded.range n hn
    exact List.mem_range'_1.mpr ⟨hrange.1, by omega⟩
  simpa using (List.subperm_of_subset recorded.nodup hsubset).length_le

end Recorded

/-- What holds between two steps, as long as results are offered afresh. -/
structure ResultInv (s : ResultFlow) : Prop where
  transmitted : Recorded s.completed s.transmitted
  dropped : Recorded s.completed s.dropped
  numDroppedFrames : s.dataTL.numDroppedFrames.toNat ≤ s.dropped.length
  completed : s.algoCtrl.algoState = .complete → 1 ≤ s.completed

theorem resultInv_start : start.ResultInv where
  transmitted := recorded_nil 0
  dropped := recorded_nil 0
  numDroppedFrames := le_refl _
  completed := nofun

theorem ResultInv.onceEach (inv : s.ResultInv) : s.OnceEach where
  transmitted := inv.transmitted.nodup
  dropped := inv.dropped.nodup
  numDroppedFrames := inv.numDroppedFrames.trans inv.dropped.length_le

theorem resultInv_offer (inv : s.ResultInv)
    (afresh : s.algoCtrl.algoState = .complete →
      (s.dataTL.state = .sendData → s.connected = true → s.completed ∉ s.transmitted) ∧
        (s.dataTL.state = .waitForAck → s.completed ∉ s.dropped)) : s.offer.ResultInv := by
  by_cases hcomplete : s.algoCtrl.algoState = .complete
  · obtain ⟨hsend, hdrop⟩ := afresh hcomplete
    have hpos := inv.completed hcomplete
    rcases offer_of_complete hcomplete with ⟨hmode, hconnected, h⟩ | ⟨-, -, h⟩ | ⟨hmode, h⟩ <;>
      rw [h]
    · exact ⟨inv.transmitted.add hpos (hsend hmode hconnected), inv.dropped,
        inv.numDroppedFrames, inv.completed⟩
    · exact ⟨inv.transmitted, inv.dropped, inv.numDroppedFrames, inv.completed⟩
    · refine ⟨inv.transmitted, inv.dropped.add hpos (hdrop hmode), ?_, inv.completed⟩
      have hcount := inv.numDroppedFrames
      have hadd : (s.dataTL.numDroppedFrames + 1).toNat ≤ s.dataTL.numDroppedFrames.toNat + 1 := by
        rw [UInt32.toNat_add]
        exact Nat.mod_le _ _
      rw [List.length_append, List.length_singleton]
      exact hadd.trans (Nat.succ_le_succ hcount)
  · rw [offer_of_other hcomplete]
    exact ⟨inv.transmitted, inv.dropped, inv.numDroppedFrames, inv.completed⟩

/-- **One step** that offers afresh. -/
theorem resultInv_step (s : ResultFlow) (action : ResultAction) (inv : s.ResultInv)
    (afresh : s.OffersAfresh action) : (s.step action).ResultInv := by
  cases action with
  | algoCtrl =>
    cases hmidway : s.midway with
    | true =>
      simp only [step, hmidway, if_true]
      have hcompleted := fun h => inv.completed (s.algoState_obtain h).1
      rw [obtain_eq] at hcompleted ⊢
      exact ⟨inv.transmitted, inv.dropped, inv.numDroppedFrames, hcompleted⟩
    | false =>
      simp only [step, hmidway, Bool.false_eq_true, if_false]
      exact resultInv_offer inv (afresh hmidway)
  | provider frame =>
    simp only [step]
    split
    · exact inv
    · split <;> exact ⟨inv.transmitted, inv.dropped, inv.numDroppedFrames, inv.completed⟩
  | dataTL received =>
    simp only [step]
    split
    · exact inv
    · refine ⟨inv.transmitted, inv.dropped, ?_, inv.completed⟩
      rw [numDroppedFrames_run]
      exact inv.numDroppedFrames
  | accept =>
    simp only [step]
    split
    · exact inv
    · exact ⟨inv.transmitted, inv.dropped, inv.numDroppedFrames, inv.completed⟩
  | worker outputData =>
    by_cases hrunning : s.algoCtrl.algoState = .running
    · simp only [step, complete_of_running hrunning]
      exact ⟨inv.transmitted.next, inv.dropped.next, inv.numDroppedFrames,
        fun _ => Nat.le_add_left _ _⟩
    · simp only [step, complete_of_other hrunning]
      exact inv

/-- A result offered again is recorded again. -/
theorem offersAfresh_of_onceEach (action : ResultAction) (once : (s.step action).OnceEach) :
    s.OffersAfresh action := by
  cases action with
  | algoCtrl =>
    intro hmidway hcomplete
    simp only [step, hmidway, Bool.false_eq_true, if_false] at once
    rcases offer_of_complete hcomplete with ⟨hmode, hconnected, h⟩ | ⟨hmode, hconnected, h⟩ |
      ⟨hmode, h⟩ <;> rw [h] at once
    · refine ⟨fun _ _ hmem => ?_, fun hwaits => ?_⟩
      · exact (List.nodup_append.mp once.transmitted).2.2 _ hmem _ (List.mem_singleton_self _) rfl
      · rw [hmode] at hwaits
        cases hwaits
    · refine ⟨fun _ htrue => ?_, fun hwaits => ?_⟩
      · rw [hconnected] at htrue
        cases htrue
      · rw [hmode] at hwaits
        cases hwaits
    · refine ⟨fun hsends => ?_, fun _ hmem => ?_⟩
      · rw [hmode] at hsends
        cases hsends
      · exact (List.nodup_append.mp once.dropped).2.2 _ hmem _ (List.mem_singleton_self _) rfl
  | provider frame => trivial
  | dataTL received => trivial
  | accept => trivial
  | worker outputData => trivial

/-! ## A frame for each result -/

/-- The result is in one of the records. -/
def Offered (s : ResultFlow) : Prop := s.completed ∈ s.transmitted ∨ s.completed ∈ s.dropped

/-- A result that has been handed over is about to be replaced. -/
structure OfferedOnce (s : ResultFlow) : Prop where
  inv : s.ResultInv
  offered : s.algoCtrl.algoState = .complete → s.Offered →
    s.midway = true ∧ s.provider.recBufferSize = colorImageSize

theorem OfferedOnce.offersAfresh (once : s.OfferedOnce) (action : ResultAction) :
    s.OffersAfresh action := by
  cases action with
  | algoCtrl =>
    intro hmidway hcomplete
    have hfresh : ¬s.Offered := by
      intro hoffered
      have := (once.offered hcomplete hoffered).1
      rw [hmidway] at this
      cases this
    exact ⟨fun _ _ hmem => hfresh (.inl hmem), fun _ hmem => hfresh (.inr hmem)⟩
  | provider frame => trivial
  | dataTL received => trivial
  | accept => trivial
  | worker outputData => trivial

theorem offeredOnce_step (s : ResultFlow) (action : ResultAction) (once : s.OfferedOnce)
    (atHand : s.FrameAtHand action) : (s.step action).OfferedOnce := by
  refine ⟨resultInv_step s action once.inv (once.offersAfresh action), ?_⟩
  cases action with
  | algoCtrl =>
    cases hmidway : s.midway with
    | true =>
      -- the frame that was at hand has been scheduled
      intro hcomplete hoffered
      simp only [step, hmidway, if_true] at hcomplete hoffered
      obtain ⟨hbefore, hno⟩ := s.algoState_obtain hcomplete
      rw [obtain_eq] at hoffered
      exact absurd (once.offered hbefore hoffered).2 hno
    | false =>
      simp only [step, hmidway, Bool.false_eq_true, if_false]
      by_cases hcomplete : s.algoCtrl.algoState = .complete
      · intro _ _
        have hfull := atHand hmidway hcomplete
        rcases offer_of_complete hcomplete with ⟨-, -, h⟩ | ⟨-, -, h⟩ | ⟨-, h⟩ <;> rw [h] <;>
          exact ⟨rfl, hfull⟩
      · rw [offer_of_other hcomplete]
        exact fun h => absurd h hcomplete
  | provider frame =>
    simp only [step]
    split
    · exact once.offered
    · rename_i hmidway
      split <;> exact fun hcomplete hoffered =>
        absurd (once.offered hcomplete hoffered).1 hmidway
  | dataTL received =>
    simp only [step]
    split <;> exact once.offered
  | accept =>
    simp only [step]
    split <;> exact once.offered
  | worker outputData =>
    by_cases hrunning : s.algoCtrl.algoState = .running
    · simp only [step, complete_of_running hrunning]
      intro _ hoffered
      rcases hoffered with hsent | hdropped
      · exact absurd hsent once.inv.transmitted.next_not_mem
      · exact absurd hdropped once.inv.dropped.next_not_mem
    · simp only [step, complete_of_other hrunning]
      exact once.offered

/-- **Results are accounted for once** along every run in which a frame is at hand for each
callback that finds `ALGO_COMPLETE`, and otherwise along exactly the runs in which no result is
handed over again to be sent or to be dropped. -/
theorem onceEach_of_frameAtHand (actions : List ResultAction) :
    (Along step FrameAtHand start actions →
      Along step (fun s action => OnceEach (step s action)) start actions) ∧
    (Along step (fun s action => OnceEach (step s action)) start actions ↔
      Along step OffersAfresh start actions) := by
  have hafresh : Along step (fun s action => OnceEach (step s action)) start actions ↔
      Along step OffersAfresh start actions :=
    along_law_iff resultInv_step (fun s inv => inv.onceEach)
      (fun s action _ once => offersAfresh_of_onceEach action once) resultInv_start actions
  have hoffered : start.OfferedOnce := ⟨resultInv_start, nofun⟩
  refine ⟨fun atHand => hafresh.mpr ?_, hafresh⟩
  exact along_imp_of_invariant offeredOnce_step (fun s action once _ => once.offersAfresh action)
    hoffered atHand

/-- Two frames: the second one is at hand when the result of the first one is handed over. -/
def twoFrames : List ResultAction :=
  [.accept, .algoCtrl, .algoCtrl, .provider (some (.replicate _ 0)), .dataTL none,
    .algoCtrl, .algoCtrl, .provider (some (.replicate _ 0)), .worker (.replicate _ 0),
    .algoCtrl, .algoCtrl, .provider none, .dataTL (some (.replicate ackBufSize 0)), .algoCtrl]

theorem onceEach_twoFrames :
    Along step (fun s action => OnceEach (step s action)) start twoFrames ∧
      (run step start twoFrames).transmitted = [1] := by
  have hatHand : Along step FrameAtHand start twoFrames := by decide +kernel
  have htransmitted : (run step start twoFrames).transmitted = [1] := by decide +kernel
  generalize twoFrames = actions at hatHand htransmitted ⊢
  exact ⟨(onceEach_of_frameAtHand actions).1 hatHand, htransmitted⟩

/-- The only frame comes in the first round, the second one schedules it, and it is
completed. The client acknowledges the result in the round that sends it, and the round
behind the ack sends it again. -/
theorem transmitted_twice :
    ¬(run step start
      [.accept, .algoCtrl, .algoCtrl, .provider (some (.replicate _ 0)), .dataTL none,
        .algoCtrl, .algoCtrl, .provider none, .dataTL none, .worker (.replicate _ 0),
        .algoCtrl, .algoCtrl, .provider none, .dataTL (some (.replicate ackBufSize 0)),
        .algoCtrl]).OnceEach := by
  intro once
  have htwice := once.transmitted
  revert htwice
  decide +kernel

end ResultFlow

end PiVision
