import PiVision.EthTerm.Send

/-!
# The outgoing stream

What a sequence of `Send` calls puts on the stream of one connection. A script is the
list of outcomes the attempts have met so far, so the state under each front part of
it is the state at an earlier moment of the same run.

As long as no call has given up, the stream is a front part of the concatenated
frames. A call that gives up leaves a hole, and nothing stops the calls after it: the
payload is sent although its header was not, and the next frame although this one was
cut. The stream stays free of gaps exactly when every attempt after a give-up fails.
-/

namespace PiVision

open ScriptLoop Framing

namespace EthTermConnection

/-- A connection's sender before its first call. -/
def SendState.initial (conn : EthTermConnection) : SendState := ⟨conn, [], false, 0, 0⟩

/-- The run of a sequence of calls against the outcomes met so far. -/
def sendRun (conn : EthTermConnection) (payloads : List PiVisionData)
    (script : List SendOutcome) : Ending SendState SendOutcome :=
  sendAll payloads script (.initial conn)

/-- The outgoing stream has no gap: at every moment of the run it is a front part of
the frames, and no byte joins it after some call has given bytes up. -/
def NoGap (conn : EthTermConnection) (payloads : List PiVisionData)
    (script : List SendOutcome) : Prop :=
  (∀ past, past <+: script → (sendRun conn payloads past).state.stream <+: framesOf payloads) ∧
    ∀ past now, past <+: now → now <+: script →
      (sendRun conn payloads past).state.gaveUp = true →
      (sendRun conn payloads now).state.stream = (sendRun conn payloads past).state.stream

/-- Every attempt made after a call has given up fails. -/
def FailsAfterGiveUp (conn : EthTermConnection) (payloads : List PiVisionData)
    (script : List SendOutcome) : Prop :=
  ∀ past outcome, past ++ [outcome] <+: script → ∀ s, sendRun conn payloads past = .waiting s →
    s.gaveUp = true → ¬ outcome.Accepts

section Run

variable {conn : EthTermConnection} {payloads : List PiVisionData} {script : List SendOutcome}

/-- One outcome more is left unread, or it is met by the attempt that waits. -/
theorem sendRun_snoc (outcome : SendOutcome) :
    (sendRun conn payloads (script ++ [outcome])).state = (sendRun conn payloads script).state ∨
      ∃ s, sendRun conn payloads script = .waiting s ∧
        AttemptEffect s.obs outcome (sendRun conn payloads (script ++ [outcome])).state.obs :=
  (stepwise_sendAll payloads).snoc script outcome (.initial conn)

/-- While no call has given up, the stream is a front part of the frames. -/
theorem stream_prefix_of_kept (kept : (sendRun conn payloads script).state.gaveUp = false) :
    (sendRun conn payloads script).state.stream <+: framesOf payloads := by
  obtain ⟨part, hpart, hstream⟩ := (puts_sendAll payloads).front script (.initial conn) kept
  have hstream : (sendRun conn payloads script).state.stream = part := hstream
  rwa [hstream]

/-- A give-up stays on record as the run goes on. -/
theorem gaveUp_snoc (outcome : SendOutcome)
    (hgave : (sendRun conn payloads script).state.gaveUp = true) :
    (sendRun conn payloads (script ++ [outcome])).state.gaveUp = true := by
  rcases sendRun_snoc outcome with hsame | ⟨s, hwait, heffect⟩
  · rwa [hsame]
  · rw [hwait] at hgave
    exact heffect.gaveUp hgave

/-- If attempts after a give-up fail, an outcome after which a give-up is on record has
put nothing on the stream: it fails, whether the give-up is its own or an earlier one. -/
theorem stream_snoc_of_gaveUp (fails : FailsAfterGiveUp conn payloads script)
    {past : List SendOutcome} {outcome : SendOutcome} (hpast : past ++ [outcome] <+: script)
    (hgave : (sendRun conn payloads (past ++ [outcome])).state.gaveUp = true) :
    (sendRun conn payloads (past ++ [outcome])).state.stream =
      (sendRun conn payloads past).state.stream := by
  rcases sendRun_snoc outcome with hsame | ⟨s, hwait, heffect⟩
  · rw [hsame]
  · rcases heffect with ⟨haccepts, chunk, -, hafter⟩ | ⟨-, hstream, -⟩
    · -- an accepting attempt does not give up, so the give-up was there before
      have hbefore : s.gaveUp = true := by
        rw [← hgave]
        exact (congrArg Prod.snd hafter).symm
      exact absurd haccepts (fails past outcome hpast s hwait hbefore)
    · rw [hwait]
      exact hstream

/-- If attempts after a give-up fail, the stream stands still from a give-up on. -/
theorem stream_eq_of_gaveUp (fails : FailsAfterGiveUp conn payloads script)
    {past : List SendOutcome} (hgave : (sendRun conn payloads past).state.gaveUp = true)
    (more : List SendOutcome) (hnow : past ++ more <+: script) :
    (sendRun conn payloads (past ++ more)).state.gaveUp = true ∧
      (sendRun conn payloads (past ++ more)).state.stream =
        (sendRun conn payloads past).state.stream := by
  induction more using List.reverseRecOn with
  | nil => simpa using hgave
  | append_singleton more outcome ih =>
    rw [← List.append_assoc] at hnow ⊢
    obtain ⟨hgave', hstream⟩ := ih ((List.prefix_append _ _).trans hnow)
    have hlater := gaveUp_snoc outcome hgave'
    exact ⟨hlater, (stream_snoc_of_gaveUp fails hnow hlater).trans hstream⟩

/-- If attempts after a give-up fail, the stream is a front part of the frames at every
moment. -/
theorem stream_prefix_of_fails (fails : FailsAfterGiveUp conn payloads script)
    (past : List SendOutcome) (hpast : past <+: script) :
    (sendRun conn payloads past).state.stream <+: framesOf payloads := by
  -- moment by moment: while nothing is given up by the specification of the calls, and from
  -- then on because the stream stands still
  induction past using List.reverseRecOn with
  | nil =>
    obtain ⟨t, hend, hobs⟩ := (stepwise_sendAll payloads).idle (.initial conn)
    have hempty : (sendRun conn payloads []).state.stream = [] := by
      rw [sendRun, hend.state_eq]
      exact congrArg Prod.fst hobs
    rw [hempty]
    exact List.nil_prefix
  | append_singleton past outcome ih =>
    by_cases hgave : (sendRun conn payloads (past ++ [outcome])).state.gaveUp = true
    · rw [stream_snoc_of_gaveUp fails hpast hgave]
      exact ih ((List.prefix_append _ _).trans hpast)
    · exact stream_prefix_of_kept (by simpa using hgave)

end Run

/-- **The stream has no gap exactly when attempts after a give-up fail.** -/
theorem noGap_iff_failsAfterGiveUp (conn : EthTermConnection) (payloads : List PiVisionData)
    (script : List SendOutcome) :
    NoGap conn payloads script ↔ FailsAfterGiveUp conn payloads script := by
  constructor
  -- an attempt accepted after a give-up adds a byte to a stream that has to stand still
  · rintro ⟨-, hstill⟩ past outcome hpast s hwait hgave haccepts
    obtain ⟨t, hend, heffect⟩ :=
      (stepwise_sendAll payloads).waiting outcome (show sendAll _ _ _ = _ from hwait)
    have hstream := hstill past (past ++ [outcome]) (List.prefix_append _ _) hpast
      (by rw [hwait]; exact hgave)
    rw [hwait, sendRun, hend.state_eq] at hstream
    rcases heffect with ⟨-, chunk, hchunk, hafter⟩ | ⟨hnot, -, -⟩
    · have hgrown : t.stream = s.stream ++ chunk := congrArg Prod.fst hafter
      rw [hgrown] at hstream
      exact hchunk (List.append_right_eq_self.mp hstream)
    · exact hnot haccepts
  · intro fails
    refine ⟨fun past hpast => stream_prefix_of_fails fails past hpast, ?_⟩
    rintro past now ⟨more, rfl⟩ hnow hgave
    exact (stream_eq_of_gaveUp fails hgave more hnow).2

/-- Eleven failed attempts make `SendHeader` give up, and the payload byte that
`SendPayload` then gets rid of is the first byte of the stream. -/
theorem noGap_broken_by_giveUp :
    ¬ NoGap (.new .server 0x1000 3) [.ofBytes [7]]
      (List.replicate 11 .failed ++ [.accepted 0]) := by
  rintro ⟨hfront, -⟩
  exact absurd (hfront _ List.prefix_rfl) (by decide)

end EthTermConnection

end PiVision
