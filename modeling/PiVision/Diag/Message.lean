import PiVision.Discovery.Replies
import PiVision.Lib.Block
import PiVision.Lib.Decimal
import PiVision.Lib.Run
import PiVision.Pipeline.Results

/-!
# The message of diagnostics

In every round of the scheduler diagnostics prints the number of dropped frames into an array
of seven bytes, and sends what stands before the first NUL. Two bytes of the array are for the
line end and one for the NUL, so that there is room for four digits. The counter goes up in
every round in which algorithm control hands a result over while an ack is outstanding. With a
client that does not acknowledge and no new frame from the camera it goes up once a round, to any
number.
-/

namespace PiVision

open Decimal Machine

/-- `sizeof(toSend)`. -/
def toSendSize : ℕ := 7

/-- A message: what `sprintf` writes, the NUL included, and what is handed to `SERVER_send`. -/
structure DiagMessage where
  printed : List UInt8
  sent : List UInt8
  deriving DecidableEq, Repr

/-- `run` of `PiVisDiag.c`. What falls outside `toSend` is left out. -/
def Diag.run (connected : Bool) (droppedFrames : UInt32) : Option DiagMessage :=
  if connected then
    let printed := decimal droppedFrames.toNat ++ [13, 10] ++ [0]
    let toSend : List.Vector UInt8 toSendSize := Block.write (.replicate _ 0) 0 printed
    some ⟨printed, cString toSend.toList⟩
  else none

/-- The message fits, and is the counter in decimal with the line end. -/
structure DiagMessage.Exact (message : DiagMessage) (droppedFrames : UInt32) : Prop where
  fits : Block.Fits toSendSize 0 message.printed
  sent : message.sent = decimal droppedFrames.toNat ++ [13, 10]

/-- The modules that the message depends on, whether diagnostics has a client, and what it has
sent. -/
structure DiagFlow where
  results : ResultFlow
  connected : Bool
  sent : List (List UInt8)

/-- What can happen: a step of the other modules or of the worker, a client of diagnostics is
accepted, or the callback of diagnostics is called. -/
inductive DiagAction
  | results (action : ResultAction)
  | accept
  | diag

/-- What the environment and the worker do in a round of the scheduler: the clients that are
accepted, the algorithm that is completed before the callback of algorithm control, inside it
or behind it, the frame for the image provider, and what the data transport receives. -/
structure DiagRound where
  acceptsData : Bool
  acceptsDiag : Bool
  before : Option GrayscaleImage
  inside : Option GrayscaleImage
  behind : Option GrayscaleImage
  frame : Option (List.Vector UInt8 colorImageSize)
  received : Option (List UInt8)

/-- What the worker does. -/
def workerActions (outputData : Option GrayscaleImage) : List DiagAction :=
  (outputData.map fun image => .results (.worker image)).toList

/-- The callbacks of a round in their order: server, algorithm control, diagnostics, image
provider, data transport. -/
def DiagRound.actions (r : DiagRound) : List DiagAction :=
  (if r.acceptsData then [.results .accept] else []) ++ (if r.acceptsDiag then [.accept] else []) ++
    workerActions r.before ++ [.results .algoCtrl] ++ workerActions r.inside ++
    [.results .algoCtrl] ++ workerActions r.behind ++
    [.diag, .results (.provider r.frame), .results (.dataTL r.received)]

namespace DiagFlow

/-- Before the first round. -/
def start : DiagFlow := ⟨.start, false, []⟩

/-- The message of a call. Diagnostics is not called while algorithm control is in its
callback. -/
def message (s : DiagFlow) : Option DiagMessage :=
  if s.results.midway then none else Diag.run s.connected s.results.dataTL.numDroppedFrames

def step (s : DiagFlow) : DiagAction → DiagFlow
  | .results action => { s with results := s.results.step action }
  | .accept => if s.results.midway then s else { s with connected := true }
  | .diag => { s with sent := s.sent ++ (s.message.map DiagMessage.sent).toList }

/-- The message of diagnostics, if it is called and has a client, fits and is exact. -/
def Lawful (s : DiagFlow) : DiagAction → Prop
  | .diag => ∀ m, s.message = some m → m.Exact s.results.dataTL.numDroppedFrames
  | _ => True

/-- When diagnostics has a client and is called, fewer than 10000 results have been dropped,
modulo 2^32. -/
def FewDropped (s : DiagFlow) : DiagAction → Prop
  | .diag => s.results.midway = false → s.connected = true →
    s.results.dropped.length % 2 ^ 32 < 10000
  | _ => True

/-! ## The message -/

section Message

/-- The digits and the line end have no NUL. -/
theorem plainText_line (n : ℕ) : PlainText (decimal n ++ [13, 10]) :=
  (plainText_decimal n).append ⟨by simp, by simp⟩

/-- A message that fits is exact. -/
theorem sent_of_fits {n : ℕ} (fits : Block.Fits toSendSize 0 (decimal n ++ [13, 10] ++ [0])) :
    cString (Block.write (.replicate toSendSize 0) 0 (decimal n ++ [13, 10] ++ [0])).toList =
      decimal n ++ [13, 10] := by
  rw [Block.toList_write _ fits, List.take_zero, List.nil_append, List.append_assoc,
    List.singleton_append]
  exact (plainText_line n).cString_append _

theorem fits_iff (n : ℕ) :
    Block.Fits toSendSize 0 (decimal n ++ [13, 10] ++ [0]) ↔ n < 10000 := by
  have hdigits : (decimal n).length ≤ 4 ↔ n < 10 ^ 4 := length_decimal_le_iff (by decide)
  rw [Block.Fits, toSendSize, List.length_append, List.length_append, List.length_cons,
    List.length_singleton, List.length_singleton]
  omega

/-- **One message**: there is room for four digits. -/
theorem exact_iff {droppedFrames : UInt32} {m : DiagMessage}
    (printed : Diag.run true droppedFrames = some m) :
    m.Exact droppedFrames ↔ droppedFrames.toNat < 10000 := by
  cases printed
  rw [← fits_iff]
  exact ⟨fun exact => exact.fits, fun fits => ⟨fits, sent_of_fits fits⟩⟩

end Message

/-! ## The counter -/

variable {s : DiagFlow}

/-- The counter counts the results that have been dropped. -/
def Counted (s : ResultFlow) : Prop :=
  s.dataTL.numDroppedFrames.toNat = s.dropped.length % 2 ^ 32

theorem counted_start : Counted start.results := rfl

theorem counted_step (s : ResultFlow) (action : ResultAction) (counted : Counted s) :
    Counted (s.step action) := by
  rw [Counted] at counted ⊢
  rcases s.dropped_step action with ⟨hcount, hdropped⟩ | ⟨hcount, hdropped⟩
  · rw [hcount, hdropped, counted]
  · have hone : (s.dataTL.numDroppedFrames + 1).toNat =
        (s.dataTL.numDroppedFrames.toNat + 1) % 2 ^ 32 := UInt32.toNat_add _ _
    rw [hcount, hdropped, hone, counted, List.length_append, List.length_singleton]
    omega

/-- **One step** of diagnostics. -/
theorem lawful_iff_fewDropped (counted : Counted s.results) (action : DiagAction) :
    s.Lawful action ↔ s.FewDropped action := by
  cases action with
  | results action => exact Iff.rfl
  | accept => exact Iff.rfl
  | diag =>
    rw [Lawful, FewDropped, message, ← counted]
    cases s.results.midway with
    | true => exact iff_of_true nofun nofun
    | false =>
      cases hconnected : s.connected with
      | false => exact iff_of_true nofun nofun
      | true =>
        obtain ⟨m, hm⟩ : ∃ m, Diag.run true s.results.dataTL.numDroppedFrames = some m := ⟨_, rfl⟩
        rw [← exact_iff hm]
        constructor
        · exact fun h _ _ => h m hm
        · intro h m' hm'
          obtain rfl := Option.some.inj (hm.symm.trans hm')
          exact h rfl rfl

/-- The results are counted after every step. -/
theorem counted_step_results (s : DiagFlow) (action : DiagAction) (counted : Counted s.results) :
    Counted (s.step action).results := by
  cases action with
  | results action => exact counted_step s.results action counted
  | accept =>
    simp only [step]
    split <;> exact counted
  | diag => exact counted

/-- **The messages fit and are exact** in the runs of the scheduler in which fewer than 10000
results have been dropped, modulo 2^32, whenever diagnostics prints their number. -/
theorem alongRounds_lawful_iff (rounds : List DiagRound) :
    Along step Lawful start (rounds.flatMap DiagRound.actions) ↔
      Along step FewDropped start (rounds.flatMap DiagRound.actions) :=
  along_congr_of_invariant counted_step_results (fun _ action counted =>
    lawful_iff_fewDropped counted action) counted_start _

/-! ## A client that does not acknowledge -/

/-- A round in which nothing comes and nothing is completed. -/
def quiet : DiagRound := ⟨false, false, none, none, none, none, none⟩

/-- A result is handed over in each round and dropped; so many have been. -/
structure Dropping (s : DiagFlow) (count : ℕ) : Prop where
  between : s.results.midway = false
  complete : s.results.algoCtrl.algoState = .complete
  noFrame : s.results.provider.recBufferSize = 0
  waits : s.results.dataTL.state = .waitForAck
  connected : s.connected = true
  dropped : s.results.dropped.length = count

section Dropping

variable {count : ℕ}

/-- The callback of algorithm control drops one more. -/
theorem Dropping.algoCtrl (dropping : s.Dropping count) :
    (run step s [.results .algoCtrl, .results .algoCtrl]).Dropping (count + 1) := by
  obtain ⟨hbetween, hcomplete, hnoFrame, hwaits, hconnected, hdropped⟩ := dropping
  rcases ResultFlow.offer_of_complete hcomplete with ⟨hsends, -⟩ | ⟨hsends, -⟩ | ⟨-, hoffer⟩
  · rw [hwaits] at hsends
    cases hsends
  · rw [hwaits] at hsends
    cases hsends
  · have hfirst : s.results.step .algoCtrl = s.results.offer := by
      rw [ResultFlow.step, hbetween]
      rfl
    have hsecond : s.results.offer.step .algoCtrl = s.results.offer.obtain := by
      rw [ResultFlow.step, hoffer]
      rfl
    have hrun : run step s [.results .algoCtrl, .results .algoCtrl] =
        { s with results := s.results.offer.obtain } := by
      simp only [run_cons, run_nil, step, hfirst, hsecond]
    rw [hrun, ResultFlow.obtain_eq, hoffer, AlgoCtrlState.run_of_empty _ hnoFrame]
    refine ⟨rfl, hcomplete, hnoFrame, hwaits, hconnected, ?_⟩
    rw [List.length_append, List.length_singleton, hdropped]

theorem Dropping.rest (dropping : s.Dropping count) :
    (run step s [.diag, .results (.provider none), .results (.dataTL none)]).Dropping count := by
  obtain ⟨hbetween, hcomplete, hnoFrame, hwaits, hconnected, hdropped⟩ := dropping
  simp only [run_cons, run_nil, step, ResultFlow.step, hbetween, Bool.false_eq_true, if_false]
  exact ⟨rfl, hcomplete, rfl, hwaits, hconnected, hdropped⟩

theorem actions_quiet : quiet.actions = [.results .algoCtrl, .results .algoCtrl] ++
    [.diag, .results (.provider none), .results (.dataTL none)] := rfl

/-- In quiet rounds the counter goes up by one a round. -/
theorem Dropping.quiet (dropping : s.Dropping count) (n : ℕ) :
    (run step s ((List.replicate n quiet).flatMap DiagRound.actions)).Dropping (count + n) := by
  induction n generalizing s count with
  | zero => exact dropping
  | succ n ih =>
    rw [List.replicate_succ, List.flatMap_cons, run_append, actions_quiet, run_append]
    have hround := ih dropping.algoCtrl.rest
    rwa [Nat.add_assoc, Nat.add_comm 1 n] at hround

end Dropping

/-- The camera is found in the first rounds. Its first frame is scheduled in the round behind
the one in which it comes, and its result is sent in the next. -/
def opening : List DiagRound :=
  [quiet, quiet, quiet, quiet, ⟨true, true, none, none, none, some (.replicate _ 0), none⟩, quiet,
    ⟨false, false, some (.replicate _ 0), none, none, none, none⟩]

theorem dropping_opening : (run step start (opening.flatMap DiagRound.actions)).Dropping 0 := by
  constructor <;> decide +kernel

/-- **The counter reaches every number** in the runs of the scheduler. -/
theorem exists_rounds (n : ℕ) :
    ∃ rounds : List DiagRound, (run step start (rounds.flatMap DiagRound.actions)).Dropping n := by
  refine ⟨opening ++ List.replicate n quiet, ?_⟩
  rw [List.flatMap_append, run_append]
  have hrun := dropping_opening.quiet n
  rwa [Nat.zero_add] at hrun

/-- From 10000 dropped results on, the next message does not fit. -/
theorem Dropping.not_lawful_diag {count : ℕ} (dropping : s.Dropping count)
    (counted : Counted s.results) (many : 10000 ≤ count % 2 ^ 32) : ¬s.Lawful .diag := by
  rw [lawful_iff_fewDropped counted]
  intro few
  have hfew := few dropping.between dropping.connected
  rw [dropping.dropped] at hfew
  omega

/-- A client that does not acknowledge its image, and 10000 rounds. -/
theorem not_alongRounds_lawful :
    ¬Along step Lawful start
      ((opening ++ List.replicate 10000 DiagFlow.quiet).flatMap DiagRound.actions) := by
  have hlast : List.replicate 10000 DiagFlow.quiet =
      List.replicate 9999 DiagFlow.quiet ++ [DiagFlow.quiet] := List.replicate_succ'
  rw [hlast, ← List.append_assoc, List.flatMap_append, List.flatMap_singleton, actions_quiet,
    along_append, along_append]
  rintro ⟨-, -, hlawful, -⟩
  rw [← run_append] at hlawful
  refine @Dropping.not_lawful_diag _ 10000 ?_
    (run_invariant step counted_step_results counted_start _) (by decide) hlawful
  rw [run_append, List.flatMap_append, run_append]
  exact (dropping_opening.quiet 9999).algoCtrl

end DiagFlow

end PiVision
