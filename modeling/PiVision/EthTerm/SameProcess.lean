import PiVision.EthTerm.AckToken

/-!
# Both ends in one process

A server's end that has received the pid message of a client in its own process raises
the data it accepts itself and does not send it. What it had sent before may still be
under way then: a data event is let through on that path whether or not the last frame
was acknowledged. Data overtakes data exactly there.

The frames under way are followed through the link in one direction, from the handler of
end `a`, the server's, to the `Execute` of end `b`.
-/

namespace PiVision

open LittleEndian Framing Machine EthTermConnection

/-! ## What is under way -/

/-- Where the thread in `Execute` may stand: it has collected no more than it asked for. -/
def ExecutePc.Reading : ExecutePc → Prop
  | .readingHeader got => got.length ≤ 4
  | .readingPayload header got => header.length = 4 ∧ got.length ≤ leValue header
  | _ => True

/-- A `recv` collects no more than is asked for, whatever has been received. -/
theorem ExecutePc.Reading.collect {e : LinkEnd} (reading : e.exec.Reading) (wire : List UInt8)
    (k : ℕ) : (e.collect (e.arriving wire k)).exec.Reading := by
  -- inside a frame the thread stands as in a sound state
  have hsound (sound : e.exec.Sound 0) := sound.collect wire k
  cases hpc : e.exec with
  | readingHeader got | readingPayload header got =>
    simp only [LinkEnd.collect, hpc] at hsound reading ⊢
    exact hsound reading
  | _ => simp only [LinkEnd.collect, hpc, ExecutePc.Reading]

/-- The data that has been received and is to be raised. -/
def ExecutePc.toRaise : ExecutePc → List (List UInt8)
  | .received payload => [payload].filter (IsData ·)
  | _ => []

/-- The data that has been let through and is to be sent. -/
def HandlerPc.toSend : HandlerPc → List (List UInt8)
  | .dataChecked data | .dataCleared data => [data.bytes]
  | _ => []

def HandlerPc.isIdle : HandlerPc → Bool
  | .idle => true
  | _ => false

namespace LinkEnd

/-- A data event is let through, to the socket or past it. -/
def accepts (e : LinkEnd) (connType : ConnectionType) : Bool :=
  e.handler.isIdle && (e.conn.receivedAck || !e.conn.ackEnabled || e.conn.isInSameProcess) &&
    decide (e.conn.connType = connType)

theorem toRaise_collect (e : LinkEnd) (chunk : List UInt8) :
    (e.collect chunk).exec.toRaise = e.exec.toRaise := by
  unfold collect
  cases hpc : e.exec <;> simp [hpc, ExecutePc.toRaise]

end LinkEnd

namespace Link

/-- The data that end `a` has let through to the socket and end `b` has not raised, the
oldest first. -/
def underWay (l : Link) : List (List UInt8) :=
  l.b.exec.toRaise ++ l.framesInFlight.filter (IsData ·) ++ l.a.handler.toSend

/-- What the direction from `a` to `b` keeps: the stream is one of frames, and `b` is
inside the first of them. -/
structure Streaming (l : Link) : Prop where
  reading : l.b.exec.Reading
  frames : ∃ frames, l.flight = encodeFrames 4 frames ∧ ∀ p ∈ frames, p.length < uint32Range

theorem underWay_eq {l : Link} {frames : List (List UInt8)}
    (stream : l.flight = encodeFrames 4 frames) (short : ∀ p ∈ frames, p.length < uint32Range) :
    l.underWay = l.b.exec.toRaise ++ frames.filter (IsData ·) ++ l.a.handler.toSend := by
  rw [underWay, framesInFlight, stream, wholeFrames_encodeFrames 4 short (by decide)]

/-- The step keeps the stream one of frames. What it lets through joins the data under
way at its end, and what it raises leaves at its front. -/
structure Carries (l l' : Link) (queued raised : List (List UInt8)) : Prop where
  streaming : l'.Streaming
  conserved : l.underWay ++ queued = raised ++ l'.underWay

section Carry

variable {l l' : Link} {queued raised : List (List UInt8)}

theorem Carries.refl (streaming : l.Streaming) : Carries l l [] [] :=
  ⟨streaming, by rw [List.append_nil, List.nil_append]⟩

/-- A step that begins no frame and ends none. -/
theorem carries_quiet (streaming : l.Streaming) (same : l'.flight = l.flight)
    (reading : l'.b.exec.Reading) (front : l.b.exec.toRaise = raised ++ l'.b.exec.toRaise)
    (back : l.a.handler.toSend ++ queued = l'.a.handler.toSend) :
    Carries l l' queued raised := by
  obtain ⟨frames, hstream, hshort⟩ := streaming.frames
  have hstream' : l'.flight = encodeFrames 4 frames := same.trans hstream
  refine ⟨⟨reading, frames, hstream', hshort⟩, ?_⟩
  rw [underWay_eq hstream hshort, underWay_eq hstream' hshort, front, ← back]
  simp only [List.append_assoc]

/-- A step of end `a` that locks `sendMutex`: a frame joins the stream at its end. It is
the data that was to be sent, or no data. -/
theorem carries_push (streaming : l.Streaming) (payload : List UInt8)
    (push : l'.flight = l.flight ++ encodeFrame 4 payload)
    (short : payload.length < uint32Range) (same : l'.b.exec = l.b.exec)
    (sent : l.a.handler.toSend = [payload].filter (IsData ·) ++ l'.a.handler.toSend) :
    Carries l l' [] [] := by
  obtain ⟨frames, hstream, hshort⟩ := streaming.frames
  have hstream' : l'.flight = encodeFrames 4 (frames ++ [payload]) := by
    rw [push, hstream, encodeFrames_append]
    simp
  have hshort' : ∀ p ∈ frames ++ [payload], p.length < uint32Range := by
    intro p hp
    obtain hp | hp := List.mem_append.mp hp
    · exact hshort p hp
    · rw [List.mem_singleton.mp hp]
      exact short
  refine ⟨⟨same ▸ streaming.reading, _, hstream', hshort'⟩, ?_⟩
  rw [underWay_eq hstream hshort, underWay_eq hstream' hshort', same, sent, List.filter_append]
  simp only [List.append_assoc, List.append_nil, List.nil_append]

/-- A step of end `b` that completes the frame being received: it leaves the stream at its
front. -/
theorem carries_take (streaming : l.Streaming) {header got : List UInt8}
    (exec : l.b.exec = .readingPayload header got) (all : got.length = leValue header) :
    Carries l { l with b := { l.b with exec := .received got } } [] [] := by
  obtain ⟨frames, hstream, hshort⟩ := streaming.frames
  have hreading : header.length = 4 ∧ got.length ≤ leValue header := by
    have h := streaming.reading
    rwa [exec] at h
  have hsplit : header ++ got ++ (l.ab ++ l.a.unsent) = encodeFrames 4 frames := by
    rw [← hstream]
    simp [flight, exec, ExecutePc.consumed]
  -- header and payload in full are the first frame of the stream
  obtain ⟨others, rfl, hrest⟩ := encodeFrames_eq_cons 4 hreading.1 all hshort (by decide) hsplit
  have hstream' : flight { l with b := { l.b with exec := .received got } } =
      encodeFrames 4 others := by
    rw [← hrest]
    simp [flight, ExecutePc.consumed]
  have hshort' : ∀ p ∈ others, p.length < uint32Range := fun p hp =>
    hshort p (List.mem_cons_of_mem _ hp)
  refine ⟨⟨trivial, others, hstream', hshort'⟩, ?_⟩
  rw [underWay_eq hstream hshort, underWay_eq hstream' hshort', ← List.singleton_append,
    List.filter_append]
  simp only [exec, ExecutePc.toRaise, List.append_assoc, List.append_nil, List.nil_append]

end Carry

/-! ## The steps of the sending end -/

section SendingEnd

variable {l : Link} (streaming : l.Streaming)

include streaming

/-- A step of end `a` that leaves the frame it is sending alone. -/
theorem carries_sameMutex {e : LinkEnd} {ba : List UInt8} (queued : List (List UInt8))
    (mutex : e.sendMutex = l.a.sendMutex) (back : l.a.handler.toSend ++ queued = e.handler.toSend) :
    Carries l { l with a := e, ba := ba } queued [] := by
  refine carries_quiet streaming ?_ streaming.reading rfl back
  simp [flight, LinkEnd.unsent, mutex]

/-- A thread of end `a` that wants to send a frame: it begins, or waits for the other. -/
theorem carries_lock (thread : LinkThread) (data : PiVisionData) {next : LinkEnd → LinkEnd}
    (short : data.size < uint32Range)
    (keeps : ∀ e, (next e).sendMutex = e.sendMutex)
    (sent : l.a.handler.toSend = [data.bytes].filter (IsData ·) ++
      (next { l.a with sendMutex := some (thread, frameOf data) }).handler.toSend) :
    Carries l { l with a := l.a.lock thread data next } [] [] := by
  unfold LinkEnd.lock
  cases hmutex : l.a.sendMutex with
  | none =>
    refine carries_push streaming data.bytes ?_ ?_ rfl sent
    · simp [flight, LinkEnd.unsent, keeps, hmutex, frameOf]
    · rwa [PiVisionData.length_bytes]
  | some holder => exact .refl streaming

/-- A thread of end `a` whose frame has been accepted, or not yet. -/
theorem carries_unlock (thread : LinkThread) {next : LinkEnd → LinkEnd}
    (keeps : ∀ e, (next e).sendMutex = e.sendMutex)
    (same : (next { l.a with sendMutex := none }).handler.toSend = l.a.handler.toSend) :
    Carries l { l with a := l.a.unlock thread next } [] [] := by
  unfold LinkEnd.unlock
  split
  · rename_i hsent
    refine carries_quiet streaming ?_ streaming.reading rfl ?_
    · simp [flight, LinkEnd.unsent, keeps, hsent]
    · simp [same]
  · exact .refl streaming

/-- A frame of a control message is no data. -/
theorem carries_control (thread : LinkThread) (data : PiVisionData) {next : LinkEnd → LinkEnd}
    (short : data.size < uint32Range) (control : StartsWithControlWord data.bytes)
    (keeps : ∀ e, (next e).sendMutex = e.sendMutex)
    (same : (next { l.a with sendMutex := some (thread, frameOf data) }).handler.toSend =
      l.a.handler.toSend) :
    Carries l { l with a := l.a.lock thread data next } [] [] := by
  refine carries_lock streaming thread data short keeps ?_
  have hno : ¬ IsData data.bytes := fun hdata => hdata.2 control
  simp [hno, same]

theorem carries_handlerStep : Carries l { l with a := l.a.handlerStep } [] [] := by
  unfold LinkEnd.handlerStep
  cases hpc : l.a.handler with
  | idle => exact .refl streaming
  | dataChecked data =>
    exact carries_sameMutex streaming [] rfl (by simp [hpc, HandlerPc.toSend])
  | dataCleared data =>
    refine carries_lock streaming _ _ (by simpa using data.short) (fun _ => rfl) ?_
    simp [hpc, HandlerPc.toSend, data.isData]
  | pidDue =>
    refine carries_control streaming _ _ ?_ ?_ (fun _ => rfl) (by simp [hpc, HandlerPc.toSend])
    · rw [← PiVisionData.length_bytes, bytes_pidMsgBuf]
      simp [uint32Range]
    · rw [bytes_pidMsgBuf]
      exact ⟨leBytes 4 pidMsg, by decide, List.prefix_append _ _⟩
  | heartbeatDue =>
    exact carries_control streaming _ _ (by decide) (by decide) (fun _ => rfl)
      (by simp [hpc, HandlerPc.toSend])
  | sendingData | sendingPid | sendingHeartbeat =>
    exact carries_unlock streaming _ (fun _ => rfl) (by simp [hpc, HandlerPc.toSend])

theorem carries_executeStepA : Carries l { l with a := l.a.executeStep } [] [] := by
  unfold LinkEnd.executeStep
  cases hpc : l.a.exec with
  | atLoop | readingHeader got | readingPayload header got =>
    simp only
    split
    · exact carries_sameMutex streaming [] rfl (by simp)
    · exact carries_sameMutex streaming [] rfl (by simp)
  | received payload =>
    simp only [LinkEnd.dispatch]
    split <;> exact carries_sameMutex streaming [] rfl (by simp)
  | ackDue =>
    exact carries_control streaming _ _ (by decide) (by decide) (fun _ => rfl) rfl
  | sendingAck => exact carries_unlock streaming _ (fun _ => rfl) rfl
  | finished => exact .refl streaming

theorem carries_sendChunk (k : ℕ) :
    Carries l { l with a := l.a.accepted k, ab := l.ab ++ l.a.departing k } [] [] := by
  -- bytes go from the socket's side of the frame to the wire, and the stream is the same
  have hsplit := l.a.departing_append_unsent k
  refine carries_quiet streaming ?_ streaming.reading rfl (List.append_nil _)
  simp [flight, ← hsplit]

end SendingEnd

/-! ## The steps of the receiving end -/

section ReceivingEnd

variable {l : Link} (streaming : l.Streaming)

include streaming

/-- A step of end `b` that leaves the thread in `Execute` where it is. -/
theorem carries_sameExec {e : LinkEnd} {ba : List UInt8} (exec : e.exec = l.b.exec) :
    Carries l { l with b := e, ba := ba } [] [] := by
  refine carries_quiet streaming ?_ (exec ▸ streaming.reading) ?_ (List.append_nil _)
  · simp [flight, exec]
  · simp [exec]

/-- A step of end `b` between two frames. -/
theorem carries_betweenFrames {e : LinkEnd} {raised : List (List UInt8)}
    (collected : e.exec.consumed = l.b.exec.consumed) (reading : e.exec.Reading)
    (front : l.b.exec.toRaise = raised ++ e.exec.toRaise) :
    Carries l { l with b := e } [] raised := by
  refine carries_quiet streaming ?_ reading front (List.append_nil _)
  simp [flight, collected]

theorem carries_recvChunk (k : ℕ) :
    Carries l { l with
      b := l.b.collect (l.b.arriving l.ab k)
      ab := l.ab.drop (l.b.arriving l.ab k).length } [] [] := by
  -- what is collected is what leaves the wire, so the stream is the same
  have hconsumed := l.b.consumed_collect l.ab k
  have hraise := l.b.toRaise_collect (l.b.arriving l.ab k)
  have hreading := streaming.reading.collect l.ab k
  rw [l.b.collect_eq]
  refine carries_quiet streaming ?_ hreading hraise.symm (List.append_nil _)
  show (l.b.collect (l.b.arriving l.ab k)).exec.consumed ++
    l.ab.drop (l.b.arriving l.ab k).length ++ l.a.unsent = _
  rw [hconsumed]
  rfl

/-- The data that a step of the thread in `Execute` raises. -/
theorem carries_executeStepB :
    Carries l { l with b := l.b.executeStep } []
      (l.b.executeStep.raised.drop l.b.raised.length) := by
  have hreading := streaming.reading
  unfold LinkEnd.executeStep
  cases hpc : l.b.exec with
  | atLoop =>
    simp only
    split
    · refine carries_betweenFrames streaming (by simp [hpc, ExecutePc.consumed])
        (by simp [ExecutePc.Reading]) (by simp [hpc, ExecutePc.toRaise])
    · refine carries_betweenFrames streaming (by simp [hpc, ExecutePc.consumed]) trivial
        (by simp [hpc, ExecutePc.toRaise])
  | readingHeader got =>
    simp only
    split
    · refine carries_betweenFrames streaming (by simp [hpc, ExecutePc.consumed])
        (by simpa [ExecutePc.Reading]) (by simp [hpc, ExecutePc.toRaise])
    · simpa using Carries.refl streaming
  | readingPayload header got =>
    simp only
    split
    · simpa using carries_take streaming hpc ‹_›
    · simpa using Carries.refl streaming
  | received payload =>
    have hkind : classify payload.length (.ofBytes payload) = .data ↔ IsData payload := by
      have h := classify_eq_data_iff_isData _ _ (PiVisionData.size_ofBytes payload)
      rwa [PiVisionData.bytes_ofBytes] at h
    simp only [LinkEnd.dispatch]
    cases hclass : classify payload.length (.ofBytes payload) with
    | data =>
      have hdata := hkind.mp hclass
      refine carries_betweenFrames streaming ?_ ?_ ?_
      · cases l.b.conn.ackEnabled <;> simp [hpc, ExecutePc.consumed]
      · cases l.b.conn.ackEnabled <;> trivial
      · cases l.b.conn.ackEnabled <;> simp [hpc, ExecutePc.toRaise, hdata]
    | ack | pid | heartbeat | empty =>
      have hno : ¬ IsData payload := by
        rw [← hkind, hclass]
        exact PayloadKind.noConfusion
      exact carries_betweenFrames streaming (by simp [hpc, ExecutePc.consumed]) trivial
        (by simp [hpc, ExecutePc.toRaise, hno])
  | ackDue =>
    simp only [LinkEnd.lock]
    cases l.b.sendMutex with
    | none =>
      exact carries_betweenFrames streaming (by simp [hpc, ExecutePc.consumed]) trivial
        (by simp [hpc, ExecutePc.toRaise])
    | some holder => simpa using Carries.refl streaming
  | sendingAck =>
    simp only [LinkEnd.unlock]
    split
    · exact carries_betweenFrames streaming (by simp [hpc, ExecutePc.consumed]) trivial
        (by simp [hpc, ExecutePc.toRaise])
    · simpa using Carries.refl streaming
  | finished => simpa using Carries.refl streaming

end ReceivingEnd

/-! ## Accepted and delivered -/

/-- The data that the server's end lets through at a step, to the socket or past it. -/
def acceptedBy (l : Link) : Side × LinkInput → List (List UInt8)
  | (.a, .dataEvent connType data) => if l.a.accepts connType then [data.bytes] else []
  | _ => []

/-- The data of the server's end that a step hands to the subscribers: raised by that end
past the socket, or by the other end's `Execute`. -/
def deliveredBy (l : Link) (input : Side × LinkInput) : List (List UInt8) :=
  match input with
  | (.a, .dataEvent _ _) => (l.step input).a.raised.drop l.a.raised.length
  | (.b, .executeStep) => (l.step input).b.raised.drop l.b.raised.length
  | _ => []

/-- A data event that goes past the socket finds no other data under way. -/
def ShortcutAlone (l : Link) : Side × LinkInput → Prop
  | (.a, .dataEvent connType data) => l.a.accepts connType = true →
    l.a.conn.isInSameProcess = true → ∀ payload ∈ l.underWay, payload = data.bytes
  | _ => True

end Link

namespace LinkEnd

variable {e : LinkEnd} {connType : ConnectionType} {data : DataPayload}

theorem dataEvent_of_refused (refused : e.accepts connType = false) :
    e.dataEvent connType data = e := by
  unfold dataEvent
  cases hpc : e.handler with
  | idle =>
    simp only [accepts, hpc, HandlerPc.isIdle, Bool.true_and, Bool.and_eq_false_iff,
      decide_eq_false_iff_not] at refused
    simp only
    split
    · rename_i hguard
      rw [if_neg (refused.resolve_left (by simp [hguard]))]
    · rfl
  | _ => rfl

theorem dataEvent_of_accepted (accepted : e.accepts connType = true) :
    e.dataEvent connType data =
      if e.conn.isInSameProcess then { e with raised := e.raised ++ [data.bytes] }
      else { e with handler := .dataChecked data } := by
  simp only [accepts, Bool.and_eq_true, decide_eq_true_eq] at accepted
  obtain ⟨⟨hidle, hguard⟩, htype⟩ := accepted
  unfold dataEvent
  cases hpc : e.handler with
  | idle =>
    simp only [hguard, htype, if_true]
    cases e.conn.isInSameProcess with
    | true => rfl
    | false => rfl
  | _ =>
    rw [hpc] at hidle
    cases hidle

theorem toSend_of_accepted (accepted : e.accepts connType = true) : e.handler.toSend = [] := by
  simp only [accepts, Bool.and_eq_true] at accepted
  cases hpc : e.handler with
  | idle => rfl
  | _ =>
    rw [hpc] at accepted
    cases accepted.1.1

end LinkEnd

namespace Link

variable {l : Link}

theorem streaming_start (serviceNo : ℕ) (fdServer fdClient : ℤ) (pid : ℕ) :
    (start .server .client serviceNo fdServer fdClient pid pid).Streaming :=
  ⟨trivial, [], rfl, by simp⟩

/-- A step at end `a`, a data event that goes past the socket apart. -/
theorem carries_stepA (streaming : l.Streaming) (input : LinkInput)
    (socket : ∀ connType data, input = .dataEvent connType data → l.a.accepts connType = true →
      l.a.conn.isInSameProcess = false) :
    Carries l (l.step (.a, input)) (l.acceptedBy (.a, input)) (l.deliveredBy (.a, input)) := by
  cases input with
  | dataEvent connType data =>
    simp only [acceptedBy, deliveredBy, step, stepA]
    cases haccepts : l.a.accepts connType with
    | true =>
      have hsocket := socket connType data rfl haccepts
      simp only [LinkEnd.dataEvent_of_accepted haccepts, hsocket, Bool.false_eq_true, if_false,
        if_true, List.drop_length]
      refine carries_sameMutex streaming [data.bytes] rfl ?_
      rw [LinkEnd.toSend_of_accepted haccepts]
      rfl
    | false =>
      simp only [LinkEnd.dataEvent_of_refused haccepts, Bool.false_eq_true, if_false,
        List.drop_length]
      exact .refl streaming
  | heartbeatTimeout id =>
    simp only [step, stepA, LinkEnd.heartbeatTimeout]
    cases hpc : l.a.handler with
    | idle =>
      simp only
      split_ifs
      · exact carries_sameMutex streaming [] rfl (by simp [hpc, HandlerPc.toSend])
      · exact carries_sameMutex streaming [] rfl (by simp [hpc, HandlerPc.toSend])
      · exact carries_sameMutex streaming [] rfl (by simp [hpc, HandlerPc.toSend])
      · exact .refl streaming
    | _ => exact .refl streaming
  | stopEvent =>
    simp only [step, stepA, LinkEnd.stopEvent]
    cases hpc : l.a.handler with
    | idle => exact carries_sameMutex streaming [] rfl (by simp [hpc])
    | _ => exact .refl streaming
  | handlerStep => exact carries_handlerStep streaming
  | executeStep => exact carries_executeStepA streaming
  | sendChunk k => exact carries_sendChunk streaming k
  | recvChunk k =>
    refine carries_sameMutex streaming [] ?_ ?_
    · unfold LinkEnd.collect
      split <;> rfl
    · unfold LinkEnd.collect
      split <;> simp

/-- A step at end `b`. -/
theorem carries_stepB (streaming : l.Streaming) (input : LinkInput) :
    Carries l (l.step (.b, input)) [] (l.deliveredBy (.b, input)) := by
  cases input with
  | dataEvent connType data =>
    refine carries_sameExec streaming ?_
    show (l.b.dataEvent connType data).exec = l.b.exec
    unfold LinkEnd.dataEvent
    split
    · split_ifs <;> rfl
    · rfl
  | heartbeatTimeout id =>
    refine carries_sameExec streaming ?_
    show (l.b.heartbeatTimeout id).exec = l.b.exec
    unfold LinkEnd.heartbeatTimeout
    split
    · split_ifs <;> rfl
    · rfl
  | stopEvent =>
    refine carries_sameExec streaming ?_
    show l.b.stopEvent.exec = l.b.exec
    unfold LinkEnd.stopEvent
    split <;> rfl
  | handlerStep =>
    refine carries_sameExec streaming ?_
    show l.b.handlerStep.exec = l.b.exec
    simp only [LinkEnd.handlerStep, LinkEnd.lock, LinkEnd.unlock]
    split
    · rfl
    · rfl
    all_goals split <;> rfl
  | executeStep => exact carries_executeStepB streaming
  | sendChunk k => exact carries_sameExec streaming rfl
  | recvChunk k => exact carries_recvChunk streaming k

theorem streaming_step (streaming : l.Streaming) (input : Side × LinkInput) :
    (l.step input).Streaming := by
  obtain ⟨side, input⟩ := input
  cases side with
  | b => exact (carries_stepB streaming input).streaming
  | a =>
    by_cases hshortcut : ∃ connType data, input = .dataEvent connType data ∧
        l.a.accepts connType = true ∧ l.a.conn.isInSameProcess = true
    · obtain ⟨connType, data, rfl, haccepts, hsame⟩ := hshortcut
      simp only [step, stepA, LinkEnd.dataEvent_of_accepted haccepts, hsame, if_true]
      have hraise : Carries l { l with a := { l.a with raised := l.a.raised ++ [data.bytes] } }
          [] [] := carries_sameMutex streaming [] rfl (List.append_nil _)
      exact hraise.streaming
    · refine (carries_stepA streaming input fun connType data hinput haccepts => ?_).streaming
      by_contra hsame
      exact hshortcut ⟨connType, data, hinput, haccepts, by simpa using hsame⟩

end Link

/-! ## The order of the data -/

/-- The two ends with what the server's end has accepted and what the subscribers of the
service have received of it. -/
structure SharedProcess where
  link : Link
  accepted : List (List UInt8)
  delivered : List (List UInt8)

namespace SharedProcess

/-- The server's and the client's end of a service, in the process of the given id. -/
def start (serviceNo : ℕ) (fdServer fdClient : ℤ) (pid : ℕ) : SharedProcess :=
  ⟨.start .server .client serviceNo fdServer fdClient pid pid, [], []⟩

def step (s : SharedProcess) (input : Side × LinkInput) : SharedProcess where
  link := s.link.step input
  accepted := s.accepted ++ s.link.acceptedBy input
  delivered := s.delivered ++ s.link.deliveredBy input

/-- What has been delivered is what was accepted first, each once; the rest is under way,
in order. -/
def InOrder (s : SharedProcess) : Prop := s.accepted = s.delivered ++ s.link.underWay

variable {s : SharedProcess}

/-- A list may be moved past an element exactly when it repeats the element. -/
theorem append_singleton_comm_iff {α : Type*} (u : List α) (d : α) :
    u ++ [d] = [d] ++ u ↔ ∀ x ∈ u, x = d := by
  induction u with
  | nil => simp
  | cons x u ih =>
    simp only [List.cons_append, List.nil_append, List.cons.injEq, List.forall_mem_cons]
    refine and_congr_right ?_
    rintro rfl
    exact ih

theorem inOrder_of_carries (inOrder : s.InOrder) {input : Side × LinkInput}
    (carries : Link.Carries s.link (s.link.step input) (s.link.acceptedBy input)
      (s.link.deliveredBy input)) : (s.step input).InOrder := by
  have hconserved := carries.conserved
  rw [InOrder] at inOrder
  simp only [InOrder, step, inOrder, List.append_assoc, hconserved]

theorem inOrder_step_iff (s : SharedProcess) (input : Side × LinkInput)
    (inv : s.link.Streaming ∧ s.InOrder) :
    (s.step input).link.Streaming ∧ (s.step input).InOrder ↔ s.link.ShortcutAlone input := by
  obtain ⟨streaming, inOrder⟩ := inv
  refine (and_iff_right (Link.streaming_step streaming input)).trans ?_
  obtain ⟨side, input⟩ := input
  cases side with
  | b => exact iff_of_true (inOrder_of_carries inOrder (Link.carries_stepB streaming input)) trivial
  | a =>
    by_cases hshortcut : ∃ connType data, input = .dataEvent connType data ∧
        s.link.a.accepts connType = true ∧ s.link.a.conn.isInSameProcess = true
    · obtain ⟨connType, data, rfl, haccepts, hsame⟩ := hshortcut
      have hunder : (s.link.step (.a, .dataEvent connType data)).underWay = s.link.underWay := by
        simp only [Link.step, Link.stepA, LinkEnd.dataEvent_of_accepted haccepts, hsame, if_true]
        rfl
      have hdelivered : s.link.deliveredBy (.a, .dataEvent connType data) = [data.bytes] := by
        simp [Link.deliveredBy, Link.step, Link.stepA, LinkEnd.dataEvent_of_accepted haccepts,
          hsame]
      have haccepted : s.link.acceptedBy (.a, .dataEvent connType data) = [data.bytes] := by
        simp [Link.acceptedBy, haccepts]
      -- the data is accepted behind what is under way and delivered in front of it
      rw [InOrder] at inOrder
      simp only [InOrder, step, haccepted, hdelivered, hunder, inOrder, List.append_assoc,
        List.append_cancel_left_eq]
      rw [append_singleton_comm_iff]
      simp only [Link.ShortcutAlone, haccepts, hsame, true_imp_iff]
    · have hsocket : ∀ connType data, input = .dataEvent connType data →
          s.link.a.accepts connType = true → s.link.a.conn.isInSameProcess = false := by
        intro connType data hinput haccepts
        by_contra hsame
        exact hshortcut ⟨connType, data, hinput, haccepts, by simpa using hsame⟩
      refine iff_of_true
        (inOrder_of_carries inOrder (Link.carries_stepA streaming input hsocket)) ?_
      cases input with
      | dataEvent connType data =>
        intro haccepts hsame
        rw [hsocket connType data rfl haccepts] at hsame
        cases hsame
      | _ => trivial

/-- Behind every step of a run the data is delivered in the order in which the server's
end accepted it, if and only if no data event goes past the socket while other data is
under way. -/
theorem inOrder_iff_shortcutAlone (serviceNo : ℕ) (fdServer fdClient : ℤ) (pid : ℕ)
    (inputs : List (Side × LinkInput)) :
    Along step (fun s input => (s.step input).InOrder) (start serviceNo fdServer fdClient pid)
        inputs ↔
      Along step (fun s input => s.link.ShortcutAlone input)
        (start serviceNo fdServer fdClient pid) inputs := by
  have hstart : (start serviceNo fdServer fdClient pid).link.Streaming :=
    Link.streaming_start serviceNo fdServer fdClient pid
  have hinOrder : (start serviceNo fdServer fdClient pid).InOrder := by
    have hflight : (start serviceNo fdServer fdClient pid).link.flight = encodeFrames 4 [] := rfl
    rw [InOrder, Link.underWay_eq hflight (by simp)]
    rfl
  have hstep : ∀ (s : SharedProcess) (input : Side × LinkInput), s.link.Streaming →
      (s.step input).link.Streaming := fun s input streaming =>
    Link.streaming_step streaming input
  calc Along step (fun s input => (s.step input).InOrder) _ inputs
      ↔ Along step (fun s input => (s.step input).link.Streaming ∧ (s.step input).InOrder) _
          inputs :=
        along_congr_of_invariant hstep
          (fun s input streaming => (and_iff_right (hstep s input streaming)).symm) hstart inputs
    _ ↔ _ := along_next_iff inOrder_step_iff ⟨hstart, hinOrder⟩ inputs

/-- The server's end has sent one frame when the client's pid message arrives; the next
data overtakes it. -/
theorem inOrder_broken_by_shortcut :
    ¬ Along step (fun s input => (s.step input).InOrder) (start 0x1000 3 4 1)
      [(.a, .dataEvent .server ⟨[1], by decide, by decide⟩), (.a, .handlerStep),
        (.a, .handlerStep), (.a, .sendChunk 4), (.a, .handlerStep),
        (.b, .heartbeatTimeout 4), (.b, .handlerStep), (.b, .sendChunk 11),
        (.a, .executeStep), (.a, .recvChunk 3), (.a, .executeStep), (.a, .recvChunk 7),
        (.a, .executeStep), (.a, .executeStep),
        (.a, .dataEvent .server ⟨[2], by decide, by decide⟩)] := by
  rintro ⟨-, -, -, -, -, -, -, -, -, -, -, -, -, -, hlast, -⟩
  exact absurd hlast (by unfold InOrder; decide)

end SharedProcess

end PiVision
