import PiVision.EthTerm.OutgoingStream
import PiVision.EthTerm.Execute

/-!
# The framing round trip

Under sockets that fail at most ten times in a row, a sequence of `Send` calls puts
exactly its frames on the stream, and the rounds of the peer's `Execute` read exactly
the payloads back, one frame a round. The splits of the stream by the two sockets have
nothing to do with each other; all that the two sides share is the stream.
-/

namespace PiVision

open ScriptLoop Framing Machine

namespace EthTermConnection

/-- The state with other answers ahead of its socket calls. -/
def ExecuteState.answered (s : ExecuteState) (recvs : List RecvInput) (sends : List SendOutcome) :
    ExecuteState :=
  { s with recvs := recvs, sends := sends }

/-- The loop stands between two rounds of a healthy connection. -/
structure Healthy (s : ExecuteState) : Prop where
  running : s.status = .running
  active : s.conn.active = true
  kept : s.gaveUp = false

section Fair

variable {acks : ℕ → SendOutcome}
  (ackFair : Fair SendOutcome.Accepts SendOutcome.Fails maxSendAttempts acks)

include ackFair

/-- The second half of a round of a healthy loop leaves it healthy. -/
theorem handlePayload_of_fair (ownPid : ℕ) (read : FrameRead) {s : ExecuteState}
    (healthy : Healthy s) :
    ∃ k t, (∀ recvs tail, handlePayload ownPid read
        (s.answered recvs (firstAnswers acks k ++ tail)) = t.answered recvs tail) ∧
      Healthy t ∧ t.wire = s.wire ∧ t.reads = s.reads := by
  obtain ⟨hrunning, hactive, hkept⟩ := healthy
  cases hkind : classify read.payloadLength read.dataBuf with
  | data =>
    by_cases hack : s.conn.ackEnabled = true
    -- the ack goes out on the connection's own stream, under a fair socket of its own
    · obtain ⟨k, u, hconn, hkept', hrun⟩ := completes_send ackMsgBuf acks ackFair
        ⟨s.conn, s.stream, s.gaveUp, 0, 0⟩ hkept
      refine ⟨k, { s with
        conn := u.conn
        stream := u.stream
        gaveUp := u.gaveUp
        raised := s.raised ++ [read]
        acked := s.acked ++ [read] }, fun recvs tail => ?_, ⟨hrunning, ?_, hkept'⟩, rfl, rfl⟩
      · simp [handlePayload, hkind, ExecuteState.answered, hack, sendAck, hrun]
      · simpa [hconn] using hactive
    · exact ⟨0, { s with raised := s.raised ++ [read] }, fun recvs tail => by
        simp [handlePayload, hkind, ExecuteState.answered, hack], ⟨hrunning, hactive, hkept⟩,
        rfl, rfl⟩
  | ack =>
    exact ⟨0, { s with conn := { s.conn with receivedAck := true, ackEnabled := true } },
      fun recvs tail => by simp [handlePayload, hkind, ExecuteState.answered],
      ⟨hrunning, hactive, hkept⟩, rfl, rfl⟩
  | pid =>
    exact ⟨0, { s with conn := { s.conn with
        isInSameProcess := decide (otherPid read.dataBuf = ownPid) } },
      fun recvs tail => by simp [handlePayload, hkind, ExecuteState.answered],
      ⟨hrunning, hactive, hkept⟩, rfl, rfl⟩
  | heartbeat | empty =>
    exact ⟨0, s, fun recvs tail => by simp [handlePayload, hkind],
      ⟨hrunning, hactive, hkept⟩, rfl, rfl⟩

variable {delivers : ℕ → RecvInput}
  (recvFair : Fair RecvInput.Delivers RecvInput.Fails maxReceiveAttempts delivers)

include recvFair

/-- A round of a healthy loop reads the frame at the front of the wire. -/
theorem executeRound_of_fair (ownPid : ℕ) {s : ExecuteState} (healthy : Healthy s)
    {payload rest : List UInt8} (fits : payload.length < uint32Range)
    (arrived : s.wire = encodeFrame 4 payload ++ rest) :
    ∃ m k t, (∀ recvs sends, executeRound ownPid (s.answered (firstAnswers delivers m ++ recvs)
        (firstAnswers acks k ++ sends)) false = t.answered recvs sends) ∧
      Healthy t ∧ t.wire = rest ∧
      t.reads.map (fun read => read.dataBuf.bytes) =
        s.reads.map (fun read => read.dataBuf.bytes) ++ [payload] := by
  obtain ⟨m, r, hread, hconn, hwire, hbytes⟩ :=
    readFrame_of_fair healthy.active fits recvFair rest
  -- the second half starts from a healthy loop, as the first left the connection alone
  have hbetween : Healthy (s.afterRead r []) :=
    ⟨healthy.running, by simpa [ExecuteState.afterRead, hconn] using healthy.active, healthy.kept⟩
  obtain ⟨k, t, hhandle, hhealthy, hwire', hreads⟩ :=
    handlePayload_of_fair ackFair ownPid r.read hbetween
  refine ⟨m, k, t, fun recvs sends => ?_, hhealthy, hwire'.trans hwire, ?_⟩
  · rw [← hhandle recvs sends]
    simp [executeRound, ExecuteState.answered, healthy.running, healthy.active, arrived, hread,
      ExecuteState.afterRead]
  · simp [hreads, ExecuteState.afterRead, hbytes]

/-- **The rounds of a healthy loop read the frames on the wire.** -/
theorem execute_of_fair (ownPid : ℕ) (frames : List (List UInt8))
    (fits : ∀ p ∈ frames, p.length < uint32Range) {s : ExecuteState} (healthy : Healthy s)
    (arrived : s.wire = encodeFrames 4 frames) :
    ∃ m k t, (∀ recvs sends, run (executeRound ownPid)
        (s.answered (firstAnswers delivers m ++ recvs) (firstAnswers acks k ++ sends))
        (List.replicate frames.length false) = t.answered recvs sends) ∧
      Healthy t ∧ t.wire = [] ∧
      t.reads.map (fun read => read.dataBuf.bytes) =
        s.reads.map (fun read => read.dataBuf.bytes) ++ frames := by
  -- each round uses up a front part of the answers, so the rest must be fair as well
  induction frames generalizing s acks delivers with
  | nil => exact ⟨0, 0, s, fun recvs sends => rfl, healthy, arrived, by simp⟩
  | cons payload frames ih =>
    obtain ⟨m₁, k₁, s₁, hround, hhealthy₁, hwire₁, hreads₁⟩ :=
      executeRound_of_fair ackFair recvFair ownPid healthy (fits payload (by simp)) arrived
    obtain ⟨m₂, k₂, t, hrun, hhealthy, hwire, hreads⟩ :=
      ih (ackFair.shift k₁) (recvFair.shift m₁) (fun p hp => fits p (by simp [hp])) hhealthy₁ hwire₁
    refine ⟨m₁ + m₂, k₁ + k₂, t, fun recvs sends => ?_, hhealthy, hwire, ?_⟩
    · rw [firstAnswers_add, firstAnswers_add, List.append_assoc, List.append_assoc,
        List.length_cons, List.replicate_succ, run_cons, hround]
      exact hrun recvs sends
    · rw [hreads, hreads₁, List.append_assoc, List.singleton_append]

end Fair

/-- **Framing round trip.** Whatever the splits of the stream by the two sockets, the
payloads sent are the payloads read, the stream is used up, and neither connection is
given up. -/
theorem frames_roundTrip (payloads : List PiVisionData)
    (short : ∀ data ∈ payloads, data.size < 2 ^ 31) (sender receiver : EthTermConnection)
    (senderActive : sender.active = true) (receiverActive : receiver.active = true) (ownPid : ℕ)
    {accepts acks : ℕ → SendOutcome} {delivers : ℕ → RecvInput}
    (sendFair : Fair SendOutcome.Accepts SendOutcome.Fails maxSendAttempts accepts)
    (recvFair : Fair RecvInput.Delivers RecvInput.Fails maxReceiveAttempts delivers)
    (ackFair : Fair SendOutcome.Accepts SendOutcome.Fails maxSendAttempts acks) :
    ∃ n s, sendAll payloads (firstAnswers accepts n) (.initial sender) = .returned s [] ∧
      s.conn.active = true ∧ s.stream = framesOf payloads ∧
      ∃ m k t, run (executeRound ownPid)
          (.start receiver s.stream (firstAnswers delivers m) (firstAnswers acks k))
          (List.replicate payloads.length false) = t ∧
        t.reads.map (fun read => read.dataBuf.bytes) = payloads.map PiVisionData.bytes ∧
        t.wire = [] ∧ t.recvs = [] ∧ t.status = .running ∧ t.conn.active = true := by
  obtain ⟨n, s, hconn, hkept, hsent⟩ :=
    completes_sendAll payloads accepts sendFair (.initial sender) rfl
  have hsent : sendAll payloads (firstAnswers accepts n) (.initial sender) = .returned s [] := by
    simpa using hsent []
  have hstream : s.stream = framesOf payloads := by
    simpa [SendState.initial] using (puts_sendAll payloads).whole _ _ _ _ hsent hkept
  have hfits : ∀ p ∈ payloads.map PiVisionData.bytes, p.length < uint32Range := by
    intro p hp
    obtain ⟨data, hdata, rfl⟩ := List.mem_map.mp hp
    rw [PiVisionData.length_bytes]
    exact (short data hdata).trans (by decide)
  obtain ⟨m, k, t, hrun, hhealthy, hwire, hreads⟩ := execute_of_fair ackFair recvFair ownPid
    (payloads.map PiVisionData.bytes) hfits (s := .start receiver s.stream [] [])
    ⟨rfl, receiverActive, rfl⟩ hstream
  refine ⟨n, s, hsent, by rw [hconn]; exact senderActive, hstream, m, k, t.answered [] [], ?_,
    ?_, hwire, rfl, hhealthy.running, hhealthy.active⟩
  · simpa [ExecuteState.answered, ExecuteState.start] using hrun [] []
  · simpa [ExecuteState.answered, ExecuteState.start] using hreads

/-- The round trip of an empty payload and a one-byte payload, every third answer of
the sockets being a failure. -/
theorem frames_roundTrip_two :
    ∃ n s, sendAll [.ofBytes [], .ofBytes [7]]
        (firstAnswers (fun i => if i % 3 = 0 then .failed else .accepted i) n)
        (.initial (.new .server 0x1000 3)) = .returned s [] ∧
      s.conn.active = true ∧ s.stream = framesOf [.ofBytes [], .ofBytes [7]] ∧
      ∃ m k t, run (executeRound 1) (.start (.new .client 0x1000 4) s.stream
          (firstAnswers (fun i => if i % 3 = 0 then .attempt .failed else .attempt (.chunk i)) m)
          (firstAnswers (fun i => if i % 3 = 0 then .failed else .accepted i) k))
          (List.replicate [PiVisionData.ofBytes [], .ofBytes [7]].length false) = t ∧
        t.reads.map (fun read => read.dataBuf.bytes) =
          [PiVisionData.ofBytes [], .ofBytes [7]].map PiVisionData.bytes ∧
        t.wire = [] ∧ t.recvs = [] ∧ t.status = .running ∧ t.conn.active = true := by
  -- among any two answers of such a socket one is not a failure
  have hsocket : Fair SendOutcome.Accepts SendOutcome.Fails maxSendAttempts
      (fun i => if i % 3 = 0 then .failed else .accepted i) := by
    refine ⟨fun i => ?_, fun i => ?_⟩
    · by_cases h : i % 3 = 0
      · exact .inr (by simp [SendOutcome.Fails, h])
      · exact .inl ⟨i, by simp [h]⟩
    · by_cases h : i % 3 = 0
      · exact ⟨1, by decide, i + 1, if_neg (by omega)⟩
      · exact ⟨0, by decide, i, if_neg h⟩
  refine frames_roundTrip _ (by decide) _ _ rfl rfl 1 hsocket ⟨fun i => ?_, fun i => ?_⟩ hsocket
  · by_cases h : i % 3 = 0
    · exact .inr (.inl (by simp [h]))
    · exact .inl ⟨i, by simp [h]⟩
  · by_cases h : i % 3 = 0
    · exact ⟨1, by decide, i + 1, if_neg (by omega)⟩
    · exact ⟨0, by decide, i, if_neg h⟩

end EthTermConnection

end PiVision
