import PiVision.EthTerm.Link
import PiVision.Lib.Run
import PiVision.Lib.StopAndWait

/-!
# The acknowledgement is a token

The two ends of a link run a two-way stop-and-wait exchange: `receivedAck` is an end's
permission to send, and the frames on a stream, the one being received and the one
being sent among them, are a queue. `Link.abs` reads the state of that exchange off a
link, and every step of the link is a move of the exchange or leaves it as it is; so
the law of the exchange, one token an end, is a law of the link.
-/

namespace PiVision

open LittleEndian Framing StopAndWait Machine EthTermConnection

/-! ## The exchange behind the link -/

/-- What a payload is to the exchange, as the receiving `Execute` will classify it. -/
def kindOf (payload : List UInt8) : Message :=
  match classify payload.length (.ofBytes payload) with
  | .data => .data
  | .ack => .ack
  | .pid | .heartbeat | .empty => .other

namespace HandlerPc

/-- The thread has found that the end may send. -/
def isChecked : HandlerPc → Bool
  | .dataChecked _ => true
  | _ => false

/-- The thread has cleared `receivedAck` and not begun to send. -/
def isCleared : HandlerPc → Bool
  | .dataCleared _ => true
  | _ => false

end HandlerPc

namespace ExecutePc

/-- The payload that has been received and not dealt with. Raised data stays until the
thread begins to send the ack. -/
def held : ExecutePc → Option Message
  | .received payload => some (kindOf payload)
  | .ackDue => some .data
  | _ => none

/-- The bytes of the frame being received that have been taken off the wire. -/
def consumed : ExecutePc → List UInt8
  | .readingHeader got => got
  | .readingPayload header got => header ++ got
  | _ => []

end ExecutePc

namespace LinkEnd

/-- The bytes of the frame being sent that have not been put on the wire. -/
def unsent (e : LinkEnd) : List UInt8 := (e.sendMutex.map Prod.snd).getD []

/-- A `send` takes bytes from the front of what is unsent. -/
theorem departing_append_unsent (e : LinkEnd) (k : ℕ) :
    e.departing k ++ (e.accepted k).unsent = e.unsent := by
  unfold departing accepted unsent
  cases e.sendMutex with
  | none => simp
  | some holder => simp

/-- A `recv` moves the thread in `Execute` and nothing else. -/
theorem collect_eq (e : LinkEnd) (chunk : List UInt8) :
    e.collect chunk = { e with exec := (e.collect chunk).exec } := by
  unfold collect
  cases e.exec <;> rfl

/-- What a `recv` collects is what leaves the wire. -/
theorem consumed_collect (e : LinkEnd) (wire : List UInt8) (k : ℕ) :
    (e.collect (e.arriving wire k)).exec.consumed ++ wire.drop (e.arriving wire k).length =
      e.exec.consumed ++ wire := by
  have hfront := e.arriving_append_drop wire k
  unfold collect
  cases hpc : e.exec with
  | readingHeader got =>
    simp only [ExecutePc.consumed]
    rw [List.append_assoc, hfront]
  | readingPayload header got =>
    simp only [ExecutePc.consumed]
    rw [← List.append_assoc header, List.append_assoc (header ++ got), hfront]
  | _ =>
    rw [e.arriving_eq_nil wire k (by simp [requested, hpc])]
    simp [hpc, ExecutePc.consumed]

theorem held_collect (e : LinkEnd) (chunk : List UInt8) :
    (e.collect chunk).exec.held = e.exec.held := by
  unfold collect
  cases hpc : e.exec <;> simp [hpc, ExecutePc.held]

/-- The end as a party of the exchange. -/
def party (e : LinkEnd) : Party where
  ready := e.conn.receivedAck
  checked := e.handler.isChecked
  cleared := e.handler.isCleared
  held := e.exec.held

end LinkEnd

namespace Link

/-- The bytes of the frames from end `a` to end `b`, from the first that `b` has taken
of the frame it is receiving to the last that `a` has still to send. -/
def flight (l : Link) : List UInt8 := l.b.exec.consumed ++ l.ab ++ l.a.unsent

/-- The frames on their way from end `a` to end `b`. -/
def framesInFlight (l : Link) : List (List UInt8) := wholeFrames 4 l.flight

/-- The data of end `a` whose acknowledgement `b` has not begun to send: `receivedAck`
has been cleared for it, and it has not been sent yet, or is in flight, or has been
received or raised by `b`. -/
def unackedData (l : Link) : ℕ :=
  l.a.handler.isCleared.toNat + (l.framesInFlight.map kindOf).count .data +
    l.b.exec.held.toList.count .data

/-- The acknowledgements travelling from end `b` to end `a`. -/
def travellingAcks (l : Link) : ℕ :=
  (l.swap.framesInFlight.map kindOf).count .ack + l.a.exec.held.toList.count .ack

/-- The state of the exchange. -/
def abs (l : Link) : State where
  a := l.a.party
  b := l.b.party
  ab := l.framesInFlight.map kindOf
  ba := l.swap.framesInFlight.map kindOf

theorem abs_swap (l : Link) : l.swap.abs = l.abs.swap := rfl

theorem token_abs (l : Link) :
    token l.abs = l.a.conn.receivedAck.toNat + l.unackedData + l.travellingAcks := rfl

end Link

/-! ## What the ends send -/

/-- The payloads that an end in a process of the given id sends. -/
def SentBy (pid : ℕ) (payload : List UInt8) : Prop :=
  payload = ackMsgBuf.bytes ∨ payload = heartbeatMsgBuf.bytes ∨
    payload = (pidMsgBuf pid).bytes ∨ (IsData payload ∧ payload.length < uint32Range)

theorem SentBy.short {pid : ℕ} {payload : List UInt8} (h : SentBy pid payload) :
    payload.length < uint32Range := by
  rcases h with hack | hheartbeat | hpid | ⟨-, hshort⟩
  · rw [hack]
    decide
  · rw [hheartbeat]
    decide
  · rw [hpid]
    simp [bytes_pidMsgBuf, uint32Range]
  · exact hshort

/-- A pid message is recognised, whatever the process id. -/
theorem classify_pid (pid : ℕ) : classify 8 (.ofBytes (pidMsgBuf pid).bytes) = .pid := by
  have hat : ∀ i, (PiVisionData.ofBytes (pidMsgBuf pid).bytes).getElementAt i =
      (([0x61, 0x1D, 0xD6, 0x61] ++ leBytes 4 pid)[i]?).getD 0 := fun i => by
    rw [PiVisionData.getElementAt_eq, PiVisionData.bytes_ofBytes, bytes_pidMsgBuf]
  have hpid : startsWithWord (pidMsgBuf 0) 8 (.ofBytes (pidMsgBuf pid).bytes) = true := by
    rw [startsWithWord_pid, PiVisionData.bytes_ofBytes, bytes_pidMsgBuf]
    exact ⟨by decide, List.prefix_append _ _⟩
  have hack : startsWithWord ackMsgBuf 8 (.ofBytes (pidMsgBuf pid).bytes) = false := by
    -- the first bytes of the three words differ
    have hzero : ackMsgBuf.getElementAt 0 = 0xEF := by decide
    simp [startsWithWord, hat, hzero]
  have hheartbeat : startsWithWord heartbeatMsgBuf 8 (.ofBytes (pidMsgBuf pid).bytes) = false := by
    have hzero : heartbeatMsgBuf.getElementAt 0 = 0xA1 := by decide
    simp [startsWithWord, hat, hzero]
  simp [classify, hpid, hack, hheartbeat]

theorem kindOf_eq_data {payload : List UInt8} (h : IsData payload) : kindOf payload = .data := by
  have hdata : classify payload.length (.ofBytes payload) = .data := by
    rw [classify_eq_data_iff_isData _ _ (PiVisionData.size_ofBytes payload),
      PiVisionData.bytes_ofBytes]
    exact h
  simp [kindOf, hdata]

theorem kindOf_ack : kindOf ackMsgBuf.bytes = .ack := by decide

theorem kindOf_heartbeat : kindOf heartbeatMsgBuf.bytes = .other := by decide

theorem kindOf_pid (pid : ℕ) : kindOf (pidMsgBuf pid).bytes = .other := by
  have hlen : (pidMsgBuf pid).bytes.length = 8 := by simp [bytes_pidMsgBuf]
  simp [kindOf, hlen, classify_pid]

/-- The pid message carries the id of the process that sends it. -/
theorem otherPid_pidMsgBuf {pid : ℕ} (range : pid < uint32Range) :
    otherPid (.ofBytes (pidMsgBuf pid).bytes) = pid := by
  rw [otherPid, PiVisionData.getWord_eq, PiVisionData.bytes_ofBytes, bytes_pidMsgBuf,
    show (4 : ℕ) = ([0x61, 0x1D, 0xD6, 0x61] : List UInt8).length from rfl, List.drop_left,
    List.take_of_length_le (by simp)]
  exact leValue_leBytes 4 pid range

/-- What is taken for a pid message is the peer's own. -/
theorem SentBy.otherPid_eq {pid : ℕ} {payload : List UInt8} (h : SentBy pid payload)
    (range : pid < uint32Range)
    (kind : classify payload.length (.ofBytes payload) = .pid) :
    otherPid (.ofBytes payload) = pid := by
  rcases h with hack | hheartbeat | hpid | ⟨hdata, -⟩
  · rw [hack] at kind
    exact absurd kind (by decide)
  · rw [hheartbeat] at kind
    exact absurd kind (by decide)
  · rw [hpid]
    exact otherPid_pidMsgBuf range
  · have hkind : classify payload.length (.ofBytes payload) = .data := by
      rw [classify_eq_data_iff_isData _ _ (PiVisionData.size_ofBytes payload),
        PiVisionData.bytes_ofBytes]
      exact hdata
    rw [hkind] at kind
    cases kind

/-! ## The invariant -/

/-- Where `Execute` may stand: it has collected no more than it asked for, and a payload
it has received is one that the peer sends. -/
def ExecutePc.Sound (peerPid : ℕ) : ExecutePc → Prop
  | .readingHeader got => got.length ≤ 4
  | .readingPayload header got => header.length = 4 ∧ got.length ≤ leValue header
  | .received payload => SentBy peerPid payload
  | _ => True

/-- A `recv` collects no more than is asked for. -/
theorem ExecutePc.Sound.collect {e : LinkEnd} {peerPid : ℕ} (sound : e.exec.Sound peerPid)
    (wire : List UInt8) (k : ℕ) : (e.collect (e.arriving wire k)).exec.Sound peerPid := by
  have hlen := e.length_arriving_le wire k
  unfold LinkEnd.collect
  cases hpc : e.exec with
  | readingHeader got =>
    rw [hpc] at sound
    simp only [LinkEnd.requested, hpc] at hlen
    simp only [ExecutePc.Sound, List.length_append] at sound ⊢
    omega
  | readingPayload header got =>
    rw [hpc] at sound
    simp only [LinkEnd.requested, hpc] at hlen
    refine ⟨sound.1, ?_⟩
    have hle := sound.2
    rw [List.length_append]
    omega
  | _ => exact sound

namespace Link

/-- What holds of end `a` and of the stream it sends on. -/
structure Sound (l : Link) : Prop where
  ackEnabled : l.a.conn.ackEnabled = true
  otherProcess : l.a.conn.isInSameProcess = false
  different : l.a.ownPid ≠ l.b.ownPid
  range : l.a.ownPid < uint32Range
  exec : l.a.exec.Sound l.b.ownPid
  frames : ∃ frames, l.flight = encodeFrames 4 frames ∧ ∀ p ∈ frames, SentBy l.a.ownPid p

/-- What holds of a link in every reachable state. -/
def Wf (l : Link) : Prop := l.Sound ∧ l.swap.Sound

/-- The step keeps the invariant, and is a move of the exchange or none. -/
def Simulates (l l' : Link) : Prop := l'.Wf ∧ (l'.abs = l.abs ∨ Move l.abs l'.abs)

theorem framesInFlight_eq {l : Link} {frames : List (List UInt8)} {pid : ℕ}
    (h : l.flight = encodeFrames 4 frames) (sent : ∀ p ∈ frames, SentBy pid p) :
    l.framesInFlight = frames := by
  rw [framesInFlight, h]
  exact wholeFrames_encodeFrames 4 (fun p hp => (sent p hp).short) (by decide)

section Steps

variable {l : Link} (wf : l.Wf)

include wf

/-- A step of end `a` after which both streams carry frames again. -/
theorem simulates_of {l' : Link} (hb : l'.b = l.b) (hpid : l'.a.ownPid = l.a.ownPid)
    (hflags : l'.a.conn.ackEnabled = true ∧ l'.a.conn.isInSameProcess = false)
    (hexec : l'.a.exec.Sound l.b.ownPid)
    (hframes : ∃ fs, l'.flight = encodeFrames 4 fs ∧ ∀ p ∈ fs, SentBy l.a.ownPid p)
    (hframes' : ∃ fs, l'.swap.flight = encodeFrames 4 fs ∧ ∀ p ∈ fs, SentBy l.b.ownPid p)
    (habs : l'.abs = l.abs ∨ Move l.abs l'.abs) : Simulates l l' := by
  obtain ⟨ha, hpeer⟩ := wf
  obtain ⟨a', b', ab', ba'⟩ := l'
  obtain rfl : b' = l.b := hb
  -- end `b` has done nothing; what it knows of `a` is the process id and the stream
  refine ⟨⟨⟨hflags.1, hflags.2, ?_, ?_, hexec, ?_⟩,
    ⟨hpeer.ackEnabled, hpeer.otherProcess, ?_, hpeer.range, ?_, hframes'⟩⟩, habs⟩
  · exact hpid ▸ ha.different
  · exact hpid ▸ ha.range
  · exact hpid ▸ hframes
  · exact hpid ▸ hpeer.different
  · exact hpid ▸ hpeer.exec

/-- A step of end `a` that begins no frame and ends none. -/
theorem simulates_quiet {l' : Link} (hb : l'.b = l.b) (hpid : l'.a.ownPid = l.a.ownPid)
    (hflags : l'.a.conn.ackEnabled = true ∧ l'.a.conn.isInSameProcess = false)
    (hexec : l'.a.exec.Sound l.b.ownPid) (hflight : l'.flight = l.flight)
    (hflight' : l'.swap.flight = l.swap.flight)
    (hparty : l'.a.party = l.a.party ∨ Move l.abs { l.abs with a := l'.a.party }) :
    Simulates l l' := by
  refine simulates_of wf hb hpid hflags hexec (hflight ▸ wf.1.frames) (hflight' ▸ wf.2.frames) ?_
  have habs : l'.abs = { l.abs with a := l'.a.party } := by
    simp [abs, framesInFlight, hflight, hflight', hb]
  rw [habs]
  rcases hparty with hsame | hmove
  · left; rw [hsame]; rfl
  · exact .inr hmove

/-- A step of end `a` that locks `sendMutex`: a new frame is in flight, behind the
others. -/
theorem simulates_lock {e : LinkEnd} {data : PiVisionData} (hfree : l.a.sendMutex = none)
    (hpid : e.ownPid = l.a.ownPid) (hconn : e.conn = l.a.conn)
    (hexec : e.exec.Sound l.b.ownPid) (hconsumed : e.exec.consumed = l.a.exec.consumed)
    (hunsent : e.unsent = frameOf data) (hsent : SentBy l.a.ownPid data.bytes)
    (hmove : Move l.abs { l.abs with a := e.party, ab := l.abs.ab ++ [kindOf data.bytes] }) :
    Simulates l { l with a := e } := by
  obtain ⟨frames, hframes, hsentAll⟩ := wf.1.frames
  -- with `sendMutex` free the last frame has been accepted in full
  have hold : l.a.unsent = [] := by simp [LinkEnd.unsent, hfree]
  have hflight : Link.flight { l with a := e } = encodeFrames 4 (frames ++ [data.bytes]) := by
    rw [encodeFrames_append, ← hframes]
    simp [flight, hold, hunsent, frameOf]
  have hsentAll' : ∀ p ∈ frames ++ [data.bytes], SentBy l.a.ownPid p := by
    intro p hp
    rcases List.mem_append.mp hp with hp | hp
    · exact hsentAll p hp
    · rw [List.mem_singleton.mp hp]; exact hsent
  have hflight' : (swap { l with a := e }).flight = l.swap.flight := by
    simp [flight, swap, hconsumed]
  refine simulates_of wf rfl hpid ?_ hexec ⟨_, hflight, hsentAll'⟩ (hflight' ▸ wf.2.frames) ?_
  · rw [hconn]; exact ⟨wf.1.ackEnabled, wf.1.otherProcess⟩
  · right
    have habs : Link.abs { l with a := e } =
        { l.abs with a := e.party, ab := l.abs.ab ++ [kindOf data.bytes] } := by
      simp only [abs, framesInFlight_eq hflight hsentAll', framesInFlight_eq hframes hsentAll,
        List.map_append, List.map_singleton]
      simp only [framesInFlight, hflight']
    rw [habs]
    exact hmove

/-- A step of end `a` that completes the frame being received: the frame leaves the
front of the stream. -/
theorem simulates_take {header got : List UInt8} (hexec : l.a.exec = .readingPayload header got)
    (hall : got.length = leValue header) :
    Simulates l { l with a := { l.a with exec := .received got } } := by
  obtain ⟨frames, hframes, hsentAll⟩ := wf.2.frames
  have hsound : header.length = 4 ∧ got.length ≤ leValue header := by
    have h := wf.1.exec
    rwa [hexec] at h
  have hsplit : header ++ got ++ (l.ba ++ l.b.unsent) = encodeFrames 4 frames := by
    rw [← hframes]
    simp [flight, swap, hexec, ExecutePc.consumed]
  -- header and payload in full are the first frame of the stream, by unique decoding
  obtain ⟨others, rfl, hrest⟩ := encodeFrames_eq_cons 4 hsound.1 hall
    (fun p hp => (hsentAll p hp).short) (by decide) hsplit
  have hflight' : (swap { l with a := { l.a with exec := .received got } }).flight =
      encodeFrames 4 others := by
    rw [← hrest]
    simp [flight, swap, ExecutePc.consumed]
  have hsentAll' : ∀ p ∈ others, SentBy l.b.ownPid p := fun p hp =>
    hsentAll p (List.mem_cons_of_mem _ hp)
  refine simulates_of wf rfl rfl ⟨wf.1.ackEnabled, wf.1.otherProcess⟩ (hsentAll got (by simp))
    wf.1.frames ⟨others, hflight', hsentAll'⟩ (.inr ?_)
  have hfirst : l.abs.ba = kindOf got :: others.map kindOf := by
    simp only [abs, framesInFlight_eq hframes hsentAll, List.map_cons]
  have hfree : l.abs.a.held = none := by simp [abs, LinkEnd.party, hexec, ExecutePc.held]
  have habs : Link.abs { l with a := { l.a with exec := .received got } } =
      { l.abs with
        a := { l.abs.a with held := some (kindOf got) }
        ba := others.map kindOf } := by
    simp only [abs, framesInFlight_eq hflight' hsentAll']
    rfl
  rw [habs]
  exact .take l.abs (kindOf got) (others.map kindOf) hfirst hfree

/-- A step of end `a` in which no mover of the exchange takes part. -/
theorem simulates_same {e : LinkEnd} (hpid : e.ownPid = l.a.ownPid)
    (hack : e.conn.receivedAck = l.a.conn.receivedAck)
    (hflags : e.conn.ackEnabled = l.a.conn.ackEnabled ∧
      e.conn.isInSameProcess = l.a.conn.isInSameProcess)
    (hchecked : e.handler.isChecked = l.a.handler.isChecked)
    (hcleared : e.handler.isCleared = l.a.handler.isCleared)
    (hexec : e.exec.Sound l.b.ownPid) (hconsumed : e.exec.consumed = l.a.exec.consumed)
    (hheld : e.exec.held = l.a.exec.held) (hunsent : e.unsent = l.a.unsent) :
    Simulates l { l with a := e } := by
  refine simulates_quiet wf rfl hpid ?_ hexec ?_ ?_ (.inl ?_)
  · exact ⟨hflags.1.trans wf.1.ackEnabled, hflags.2.trans wf.1.otherProcess⟩
  · simp [flight, hunsent]
  · simp [flight, swap, hconsumed]
  · simp [LinkEnd.party, hack, hchecked, hcleared, hheld]

omit wf in
theorem simulates_refl (wf : l.Wf) : Simulates l l := ⟨wf, .inl rfl⟩

/-! ### One step of the handler thread -/

theorem simulates_dataEvent (connType : ConnectionType) (data : DataPayload) :
    Simulates l { l with a := l.a.dataEvent connType data } := by
  unfold LinkEnd.dataEvent
  cases hpc : l.a.handler with
  | idle =>
    simp only [wf.1.ackEnabled, wf.1.otherProcess, Bool.not_true, Bool.or_false,
      Bool.not_false, if_true]
    split
    · -- with acks enabled and the peer elsewhere, only `receivedAck` lets the event pass
      rename_i hready
      split
      · refine simulates_quiet wf rfl rfl ⟨wf.1.ackEnabled, wf.1.otherProcess⟩ wf.1.exec rfl rfl
          (.inr ?_)
        have hmove := Move.check l.abs hready
        simpa [abs, LinkEnd.party, HandlerPc.isChecked, HandlerPc.isCleared, hpc] using hmove
      · exact simulates_refl wf
    · exact simulates_refl wf
  | _ => exact simulates_refl wf

theorem simulates_heartbeatTimeout (id : ℤ) :
    Simulates l { l with a := l.a.heartbeatTimeout id } := by
  unfold LinkEnd.heartbeatTimeout
  cases hpc : l.a.handler with
  | idle =>
    simp only
    split_ifs
    · exact simulates_same wf rfl rfl ⟨rfl, rfl⟩ (by simp [hpc, HandlerPc.isChecked])
        (by simp [hpc, HandlerPc.isCleared]) wf.1.exec rfl rfl rfl
    · exact simulates_same wf rfl rfl ⟨rfl, rfl⟩ (by simp [hpc, HandlerPc.isChecked])
        (by simp [hpc, HandlerPc.isCleared]) wf.1.exec rfl rfl rfl
    · exact simulates_same wf rfl rfl ⟨rfl, rfl⟩ (by simp [hpc]) (by simp [hpc]) wf.1.exec rfl rfl
        rfl
    · exact simulates_refl wf
  | _ => exact simulates_refl wf

theorem simulates_stopEvent : Simulates l { l with a := l.a.stopEvent } := by
  unfold LinkEnd.stopEvent
  cases hpc : l.a.handler with
  | idle =>
    exact simulates_same wf rfl rfl ⟨rfl, rfl⟩ (by simp [hpc]) (by simp [hpc]) wf.1.exec rfl rfl rfl
  | _ => exact simulates_refl wf

/-- Unlocking `sendMutex` puts no byte anywhere. -/
theorem simulates_unlock (thread : LinkThread) {next : LinkEnd → LinkEnd}
    (h : l.a.sendMutex = some (thread, []) →
      Simulates l { l with a := next { l.a with sendMutex := none } }) :
    Simulates l { l with a := l.a.unlock thread next } := by
  unfold LinkEnd.unlock
  split
  · exact h ‹_›
  · exact simulates_refl wf

/-- A thread that finds `sendMutex` locked waits. -/
theorem simulates_waiting (thread : LinkThread) (data : PiVisionData)
    {next : LinkEnd → LinkEnd}
    (h : l.a.sendMutex = none →
      Simulates l { l with a := next { l.a with sendMutex := some (thread, frameOf data) } }) :
    Simulates l { l with a := l.a.lock thread data next } := by
  unfold LinkEnd.lock
  cases hmutex : l.a.sendMutex with
  | none => exact h hmutex
  | some holder => exact simulates_refl wf

theorem simulates_handlerStep : Simulates l { l with a := l.a.handlerStep } := by
  unfold LinkEnd.handlerStep
  cases hpc : l.a.handler with
  | idle => exact simulates_refl wf
  | dataChecked data =>
    refine simulates_quiet wf rfl rfl ⟨wf.1.ackEnabled, wf.1.otherProcess⟩ wf.1.exec rfl rfl
      (.inr ?_)
    have hmove := Move.clear l.abs (by simp [abs, LinkEnd.party, hpc, HandlerPc.isChecked])
      (by simp [abs, LinkEnd.party, hpc, HandlerPc.isCleared])
    simpa [abs, LinkEnd.party, HandlerPc.isChecked, HandlerPc.isCleared] using hmove
  | dataCleared data =>
    refine simulates_waiting wf _ _ fun hfree => ?_
    have hdata : SentBy l.a.ownPid data.bytes := .inr (.inr (.inr ⟨data.isData, data.short⟩))
    refine simulates_lock wf hfree rfl rfl wf.1.exec rfl rfl (by simpa using hdata) ?_
    have hmove := Move.send l.abs (by simp [abs, LinkEnd.party, hpc, HandlerPc.isCleared])
    simpa [abs, LinkEnd.party, HandlerPc.isChecked, HandlerPc.isCleared, hpc,
      kindOf_eq_data data.isData] using hmove
  | pidDue =>
    refine simulates_waiting wf _ _ fun hfree => ?_
    refine simulates_lock wf hfree rfl rfl wf.1.exec rfl rfl (.inr (.inr (.inl rfl))) ?_
    have hmove := Move.sendOther l.abs
    simpa [abs, LinkEnd.party, HandlerPc.isChecked, HandlerPc.isCleared, hpc, kindOf_pid]
      using hmove
  | heartbeatDue =>
    refine simulates_waiting wf _ _ fun hfree => ?_
    refine simulates_lock wf hfree rfl rfl wf.1.exec rfl rfl (.inr (.inl rfl)) ?_
    have hmove := Move.sendOther l.abs
    simpa [abs, LinkEnd.party, HandlerPc.isChecked, HandlerPc.isCleared, hpc,
      kindOf_heartbeat] using hmove
  | sendingData | sendingPid | sendingHeartbeat =>
    exact simulates_unlock wf _ fun hsent =>
      simulates_same wf rfl rfl ⟨rfl, rfl⟩ (by simp [hpc, HandlerPc.isChecked])
        (by simp [hpc, HandlerPc.isCleared]) wf.1.exec rfl rfl (by simp [LinkEnd.unsent, hsent])

/-! ### One step of the thread in `Execute` -/

theorem simulates_dispatch {payload : List UInt8} (hpc : l.a.exec = .received payload) :
    Simulates l { l with a := l.a.dispatch payload } := by
  have hsent : SentBy l.b.ownPid payload := by
    have h := wf.1.exec
    rwa [hpc] at h
  have hheld : l.abs.a.held = some (kindOf payload) := by
    simp [abs, LinkEnd.party, hpc, ExecutePc.held]
  unfold LinkEnd.dispatch
  cases hkind : classify payload.length (.ofBytes payload) with
  | data =>
    -- raised, but not answered yet: the payload stays in hand
    simp only [wf.1.ackEnabled, if_true]
    exact simulates_same wf rfl rfl ⟨rfl, rfl⟩ rfl rfl trivial
      (by simp [hpc, ExecutePc.consumed]) (by simp [hpc, ExecutePc.held, kindOf, hkind]) rfl
  | ack =>
    refine simulates_quiet wf rfl rfl ⟨rfl, wf.1.otherProcess⟩ trivial rfl
      (by simp [flight, swap, hpc, ExecutePc.consumed]) (.inr ?_)
    have hmove := Move.accept l.abs (by rw [hheld]; simp [kindOf, hkind])
    simpa [abs, LinkEnd.party, ExecutePc.held] using hmove
  | pid =>
    -- the peer's pid is not the own one, so `isInSameProcess` stays cleared
    have hother : otherPid (.ofBytes payload) ≠ l.a.ownPid := by
      rw [hsent.otherPid_eq wf.2.range hkind]
      exact wf.2.different
    refine simulates_quiet wf rfl rfl ⟨wf.1.ackEnabled, by simpa using hother⟩ trivial rfl
      (by simp [flight, swap, hpc, ExecutePc.consumed]) (.inr ?_)
    have hmove := Move.drop l.abs (by rw [hheld]; simp [kindOf, hkind])
    simpa [abs, LinkEnd.party, ExecutePc.held] using hmove
  | heartbeat | empty =>
    refine simulates_quiet wf rfl rfl ⟨wf.1.ackEnabled, wf.1.otherProcess⟩ trivial rfl
      (by simp [flight, swap, hpc, ExecutePc.consumed]) (.inr ?_)
    have hmove := Move.drop l.abs (by rw [hheld]; simp [kindOf, hkind])
    simpa [abs, LinkEnd.party, ExecutePc.held] using hmove

theorem simulates_executeStep : Simulates l { l with a := l.a.executeStep } := by
  have hsound := wf.1.exec
  unfold LinkEnd.executeStep
  cases hpc : l.a.exec with
  | atLoop =>
    simp only
    split
    · exact simulates_same wf rfl rfl ⟨rfl, rfl⟩ rfl rfl (by simp [ExecutePc.Sound])
        (by simp [hpc, ExecutePc.consumed]) (by simp [hpc, ExecutePc.held]) rfl
    · exact simulates_same wf rfl rfl ⟨rfl, rfl⟩ rfl rfl trivial
        (by simp [hpc, ExecutePc.consumed]) (by simp [hpc, ExecutePc.held]) rfl
  | readingHeader got =>
    simp only
    split
    · exact simulates_same wf rfl rfl ⟨rfl, rfl⟩ rfl rfl (by simpa [ExecutePc.Sound])
        (by simp [hpc, ExecutePc.consumed]) (by simp [hpc, ExecutePc.held]) rfl
    · exact simulates_refl wf
  | readingPayload header got =>
    simp only
    split
    · exact simulates_take wf hpc ‹_›
    · exact simulates_refl wf
  | received payload => exact simulates_dispatch wf hpc
  | ackDue =>
    refine simulates_waiting wf _ _ fun hfree => ?_
    refine simulates_lock wf hfree rfl rfl trivial (by simp [hpc, ExecutePc.consumed]) rfl
      (.inl rfl) ?_
    have hmove := Move.answer l.abs (by simp [abs, LinkEnd.party, hpc, ExecutePc.held])
    simpa [abs, LinkEnd.party, ExecutePc.held, kindOf_ack] using hmove
  | sendingAck =>
    exact simulates_unlock wf _ fun hsent =>
      simulates_same wf rfl rfl ⟨rfl, rfl⟩ rfl rfl trivial (by simp [hpc, ExecutePc.consumed])
        (by simp [hpc, ExecutePc.held]) (by simp [LinkEnd.unsent, hsent])
  | finished => exact simulates_refl wf

/-! ### Bytes from and to the socket -/

theorem simulates_sendChunk (k : ℕ) :
    Simulates l { l with a := l.a.accepted k, ab := l.ab ++ l.a.departing k } := by
  -- bytes go from the socket's side of the frame to the wire, and the flight is the same
  have hsplit := l.a.departing_append_unsent k
  refine simulates_quiet wf rfl rfl ⟨wf.1.ackEnabled, wf.1.otherProcess⟩ wf.1.exec ?_ rfl (.inl rfl)
  simp [flight, ← hsplit]

theorem simulates_recvChunk (k : ℕ) :
    Simulates l { l with
      a := l.a.collect (l.a.arriving l.ba k)
      ba := l.ba.drop (l.a.arriving l.ba k).length } := by
  -- what is collected is what leaves the wire, so the flight towards `a` is the same
  have hconsumed := l.a.consumed_collect l.ba k
  have hheld := l.a.held_collect (l.a.arriving l.ba k)
  have hexec := wf.1.exec.collect l.ba k
  rw [l.a.collect_eq]
  refine simulates_quiet wf rfl rfl ⟨wf.1.ackEnabled, wf.1.otherProcess⟩ hexec rfl ?_ (.inl ?_)
  · show (l.a.collect (l.a.arriving l.ba k)).exec.consumed ++
      l.ba.drop (l.a.arriving l.ba k).length ++ l.b.unsent = _
    rw [hconsumed]
    rfl
  · simp only [LinkEnd.party, hheld]

end Steps

/-- **Every step of the link is a move of the exchange, or leaves it as it is.** -/
theorem simulates_stepA {l : Link} (wf : l.Wf) (input : LinkInput) :
    Simulates l (l.stepA input) := by
  cases input with
  | dataEvent connType data => exact simulates_dataEvent wf connType data
  | heartbeatTimeout id => exact simulates_heartbeatTimeout wf id
  | stopEvent => exact simulates_stopEvent wf
  | handlerStep => exact simulates_handlerStep wf
  | executeStep => exact simulates_executeStep wf
  | sendChunk k => exact simulates_sendChunk wf k
  | recvChunk k => exact simulates_recvChunk wf k

/-! ## Every reachable state -/

/-- The link is sound and each end owns one token. -/
def Inv (l : Link) : Prop := l.Wf ∧ StopAndWait.Inv l.abs

theorem inv_step (l : Link) (input : Side × LinkInput) (inv : l.Inv) : (l.step input).Inv := by
  obtain ⟨wf, htoken⟩ := inv
  obtain ⟨side, input⟩ := input
  cases side with
  | a =>
    obtain ⟨wf', habs | hmove⟩ := simulates_stepA wf input
    · exact ⟨wf', by rw [step, habs]; exact htoken⟩
    · exact ⟨wf', Step.inv (.inl hmove) htoken⟩
  -- a step of end `b` is a step of end `a` of the link seen from the other side
  | b =>
    have hswap : l.swap.Wf := ⟨wf.2, wf.1⟩
    obtain ⟨wf', habs | hmove⟩ := simulates_stepA hswap input
    · refine ⟨⟨wf'.2, wf'.1⟩, ?_⟩
      rw [step, abs_swap, habs, abs_swap]
      exact htoken
    · have hback : Move l.abs.swap (l.step (.b, input)).abs.swap := hmove
      exact ⟨⟨wf'.2, wf'.1⟩, Step.inv (.inr hback) htoken⟩

/-- The law of the token for end `a`: the end may send, or one data frame of its is
without the beginning of an answer, or one answer is travelling to it. -/
structure TokenLaw (l : Link) : Prop where
  token_eq : l.a.conn.receivedAck.toNat + l.unackedData + l.travellingAcks = 1
  /-- At most one data frame is unacknowledged. -/
  one_outstanding : l.unackedData + l.travellingAcks ≤ 1
  /-- An ack that has been received finds `receivedAck` cleared. -/
  no_spurious_ack : ∀ payload, l.a.exec = .received payload →
    classify payload.length (.ofBytes payload) = .ack → l.a.conn.receivedAck = false
  /-- While nothing is outstanding, no data event for the end is refused. -/
  not_refused : l.unackedData = 0 → l.travellingAcks = 0 → l.a.handler = .idle → ∀ data,
    (l.a.dataEvent l.a.conn.connType data).handler = .dataChecked data

section Start

variable (typeA typeB : ConnectionType) (serviceNo : ℕ) (fdA fdB : ℤ) {pidA pidB : ℕ}

theorem inv_start (different : pidA ≠ pidB) (rangeA : pidA < uint32Range)
    (rangeB : pidB < uint32Range) : (start typeA typeB serviceNo fdA fdB pidA pidB).Inv :=
  ⟨⟨⟨rfl, rfl, different, rangeA, trivial, [], rfl, by simp⟩,
      ⟨rfl, rfl, different.symm, rangeB, trivial, [], rfl, by simp⟩⟩,
    ⟨⟨rfl, fun h => by cases h⟩, ⟨rfl, fun h => by cases h⟩⟩⟩

/-- The link after a run, seen from one of its ends. -/
def viewAfter (pidA pidB : ℕ) (inputs : List (Side × LinkInput)) : Side → Link
  | .a => run step (start typeA typeB serviceNo fdA fdB pidA pidB) inputs
  | .b => (run step (start typeA typeB serviceNo fdA fdB pidA pidB) inputs).swap

theorem inv_viewAfter (different : pidA ≠ pidB) (rangeA : pidA < uint32Range)
    (rangeB : pidB < uint32Range) (inputs : List (Side × LinkInput)) (side : Side) :
    (viewAfter typeA typeB serviceNo fdA fdB pidA pidB inputs side).Inv := by
  have hinv := run_invariant step inv_step
    (inv_start typeA typeB serviceNo fdA fdB different rangeA rangeB) inputs
  cases side with
  | a => exact hinv
  | b => exact ⟨⟨hinv.1.2, hinv.1.1⟩, ⟨hinv.2.2, hinv.2.1⟩⟩

/-- **The acknowledgement is a token.** In every reachable state, for each end. -/
theorem tokenLaw_viewAfter (different : pidA ≠ pidB) (rangeA : pidA < uint32Range)
    (rangeB : pidB < uint32Range) (inputs : List (Side × LinkInput)) (side : Side) :
    (viewAfter typeA typeB serviceNo fdA fdB pidA pidB inputs side).TokenLaw := by
  -- one of the two tokens of the exchange is that of the end looked at
  obtain ⟨wf, howns, -⟩ :=
    inv_viewAfter typeA typeB serviceNo fdA fdB different rangeA rangeB inputs side
  have htoken := howns.token_eq
  rw [token_abs] at htoken
  refine ⟨htoken, by omega, fun payload hpc hkind => ?_, fun hsent hback hidle data => ?_⟩
  · apply howns.not_ready_of_answer
    simp [answers, abs, LinkEnd.party, hpc, ExecutePc.held, kindOf, hkind]
  · have hready := howns.ready_of_idle hsent hback
    simp only [abs, LinkEnd.party] at hready
    simp [LinkEnd.dataEvent, hidle, hready, wf.1.otherProcess]

/-- The law after a server's end has cleared `receivedAck` and locked `sendMutex`. -/
theorem tokenLaw_sending :
    (viewAfter .server .client 0x1000 3 4 1 2
      [(.a, .dataEvent .server ⟨[7], by decide, by decide⟩), (.a, .handlerStep),
        (.a, .handlerStep), (.a, .sendChunk 2)] .a).TokenLaw :=
  tokenLaw_viewAfter .server .client 0x1000 3 4 (by decide) (by decide) (by decide) _ _

end Start

end Link

end PiVision
