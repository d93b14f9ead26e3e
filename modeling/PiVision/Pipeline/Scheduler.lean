import PiVision.Pipeline.AlgoCtrl
import PiVision.Lib.Run

/-!
# Rounds of the scheduler

`SCHED_run` calls the registered callbacks in the order of their registration, again
and again. `main` registers the client, the server, algorithm control, diagnostics, the
image provider, control, and the data transport. Of these, the client, algorithm
control and the image provider touch the frame on its way through the process; the
worker that executes an algorithm touches the algorithm's state only.
-/

namespace PiVision

/-- The modules a frame passes through, and what each round so far has done with it:
the buffer of the client if it entered `PROCESSING_FRAME` in the round, and the frame
that algorithm control obtained in the round. -/
structure Process where
  client : ClientState
  provider : ImageProviderState
  algoCtrl : AlgoCtrlState
  entered : List (Option (List UInt8))
  obtained : List (Option (List UInt8))

/-- What the environment does in a round: the answers to the client's calls, and whether
the worker completes the algorithm before algorithm control looks at it. -/
structure RoundInput where
  client : ClientInput
  workerCompletes : Bool

namespace Process

/-- The process after the calls of `main`, with the client in the given state. -/
def init (client : ClientState) : Process := ⟨client, .init, .init, [], []⟩

/-- The client's callback. -/
def clientRun (input : ClientInput) (p : Process) : Process :=
  let client := p.client.run input
  let enters := p.client.currState ≠ 4 ∧ client.currState = 4
  { p with
    client := client
    entered := p.entered ++ [if enters then some client.buffer.toList else none] }

/-- What the worker does to the algorithm's state between two callbacks. -/
def workerStep (completes : Bool) (p : Process) : Process :=
  if completes ∧ p.algoCtrl.algoState = .running then
    { p with algoCtrl := { p.algoCtrl with algoState := .complete } }
  else p

/-- The callback of algorithm control. -/
def algoCtrlRun (p : Process) : Process :=
  let (algoCtrl, effect) := p.algoCtrl.run p.provider
  { p with
    algoCtrl := algoCtrl
    obtained := p.obtained ++ [effect.obtained.map List.Vector.toList] }

/-- The callback of the image provider. -/
def providerRun (p : Process) : Process :=
  let (provider, client) := p.provider.run p.client
  { p with provider := provider, client := client }

/-- A round. -/
def round (p : Process) (input : RoundInput) : Process :=
  -- server, diagnostics, control and data transport leave all of this alone
  (((p.clientRun input.client).workerStep input.workerCompletes).algoCtrlRun).providerRun

end Process

end PiVision
