import PiVision.EthTerm.Connection
import PiVision.Lib.Framing
import PiVision.Lib.ScriptLoop

/-!
# Sending

`SendPayload` offers a buffer to the socket in chunks of at most `maxChunkSize`
bytes. `Send` makes two such calls under `sendMutex`, one for the length header and
one for the payload, and looks at the outcome of neither; so the calls of `Send` on
one connection are a sequence of `SendPayload` calls on one outgoing stream.

`gaveUp` records that some call has left its loop with bytes unsent.
-/

namespace PiVision

open ScriptLoop LittleEndian Framing

/-- What one attempt meets at the socket: a pending `SO_ERROR`, a `send` that fails,
or a `send` that accepts some bytes. `accepted k` accepts `k + 1` bytes, or all that
were offered if these are fewer. -/
inductive SendOutcome
  | pendingError
  | failed
  | accepted (k : ℕ)
  deriving DecidableEq, Repr

/-- The attempt puts bytes on the stream. -/
def SendOutcome.Accepts (outcome : SendOutcome) : Prop := ∃ k, outcome = .accepted k

/-- The `send` call fails. -/
def SendOutcome.Fails (outcome : SendOutcome) : Prop := outcome = .failed

namespace EthTermConnection

def maxSendAttempts : ℕ := 10

/-- The locals of `SendPayload`, with the connection, the bytes its socket has
accepted so far, and whether a call has given up. -/
structure SendState where
  conn : EthTermConnection
  stream : List UInt8
  gaveUp : Bool
  numAttempts : ℕ
  numBytesSent : ℕ

/-- The chunk an attempt offers, copied out of the buffer element by element. -/
def sendBuffer (data : PiVisionData) (s : SendState) : List UInt8 :=
  (List.range (min 4096 (data.size - s.numBytesSent))).map fun i =>
    data.getElementAt (s.numBytesSent + i)

/-- One round of the loop in `SendPayload`. -/
def sendBody (data : PiVisionData) (s : SendState) (outcome : SendOutcome) : Flow SendState :=
  let conn := if outcome = .pendingError then s.conn.deactivate else s.conn
  -- unlike `Receive`, only an attempt that gets as far as `send` is counted
  let numAttempts := if outcome = .pendingError then s.numAttempts else s.numAttempts + 1
  match outcome with
  | .accepted k =>
    .next { s with
      conn := conn
      stream := s.stream ++ (sendBuffer data s).take (k + 1)
      numAttempts := 0
      numBytesSent := s.numBytesSent + ((sendBuffer data s).take (k + 1)).length }
  | _ =>
    if maxSendAttempts < numAttempts then
      .leave { s with conn := conn.deactivate, gaveUp := true, numAttempts := numAttempts }
    else
      .next { s with conn := conn, numAttempts := numAttempts }

/-- The loop condition of `SendPayload`. -/
def sendGuard (data : PiVisionData) (s : SendState) : Bool :=
  decide (s.numBytesSent < data.size)

/-- The locals at the start of a `SendPayload` call. -/
def SendState.enter (s : SendState) : SendState := { s with numAttempts := 0, numBytesSent := 0 }

/-- `SendPayload`. -/
def sendPayload (data : PiVisionData) (script : List SendOutcome) (s : SendState) :
    Ending SendState SendOutcome :=
  loop (sendGuard data) (sendBody data) script s.enter

/-- The header `SendHeader` builds: the payload's size in four bytes. -/
def header (data : PiVisionData) : PiVisionData := (PiVisionData.new 4).appendWord data.size

/-- `SendHeader`. -/
def sendHeader (data : PiVisionData) :
    List SendOutcome → SendState → Ending SendState SendOutcome :=
  sendPayload (header data)

/-- `Send`, the caller holding `sendMutex` throughout. -/
def send (data : PiVisionData) : List SendOutcome → SendState → Ending SendState SendOutcome :=
  andThen (sendHeader data) (sendPayload data)

/-- The calls of `Send` on one connection, one after the other. -/
def sendAll : List PiVisionData → List SendOutcome → SendState → Ending SendState SendOutcome
  | [], script, s => .returned s script
  | data :: rest, script, s => andThen (send data) (sendAll rest) script s

/-- The frame of a payload: its length and its bytes. -/
def frameOf (data : PiVisionData) : List UInt8 := encodeFrame 4 data.bytes

theorem bytes_header (data : PiVisionData) : (header data).bytes = leBytes 4 data.size := by
  have h := (PiVisionData.appendWord_of_fits (d := .new 4) (by decide) (by decide) data.size).1
  simpa [header] using h

theorem frameOf_eq (data : PiVisionData) : frameOf data = (header data).bytes ++ data.bytes := by
  simp [frameOf, encodeFrame, bytes_header]

/-! ## What one attempt does -/

theorem length_sendBuffer (data : PiVisionData) (s : SendState) :
    (sendBuffer data s).length = min 4096 (data.size - s.numBytesSent) := by
  simp [sendBuffer]

/-- The chunk offered is the next part of the payload. -/
theorem sendBuffer_eq (data : PiVisionData) (s : SendState) :
    sendBuffer data s =
      (data.bytes.drop s.numBytesSent).take (min 4096 (data.size - s.numBytesSent)) := by
  by_cases h : s.numBytesSent ≤ data.size
  · exact PiVisionData.map_getElementAt data (by omega)
  · have hzero : min 4096 (data.size - s.numBytesSent) = 0 := by omega
    simp [sendBuffer, hzero]

/-- What one round can do: put the next bytes of the payload on the stream, give the
call up, or move no byte. -/
theorem sendBody_cases (data : PiVisionData) (s : SendState) (outcome : SendOutcome) :
    (∃ k, outcome = .accepted k ∧ sendBody data s outcome = .next { s with
      stream := s.stream ++ (sendBuffer data s).take (k + 1)
      numAttempts := 0
      numBytesSent := s.numBytesSent + ((sendBuffer data s).take (k + 1)).length }) ∨
    (¬ outcome.Accepts ∧ ∃ n, sendBody data s outcome =
      .leave { s with conn := s.conn.deactivate, gaveUp := true, numAttempts := n }) ∨
    (¬ outcome.Accepts ∧ ∃ conn n, (conn = s.conn ∨ conn = s.conn.deactivate) ∧
      sendBody data s outcome = .next { s with conn := conn, numAttempts := n }) := by
  have hnot : ∀ o : SendOutcome, (∀ k, o ≠ .accepted k) → ¬ o.Accepts := fun o h ⟨k, hk⟩ => h k hk
  cases outcome with
  | accepted k => exact .inl ⟨k, rfl, by simp [sendBody]⟩
  | pendingError =>
    by_cases hlimit : maxSendAttempts < s.numAttempts
    · exact .inr (.inl ⟨hnot _ (by simp), s.numAttempts, by simp [sendBody, hlimit]⟩)
    · exact .inr (.inr ⟨hnot _ (by simp), s.conn.deactivate, s.numAttempts, .inr rfl, by
        simp [sendBody, hlimit]⟩)
  | failed =>
    by_cases hlimit : maxSendAttempts < s.numAttempts + 1
    · exact .inr (.inl ⟨hnot _ (by simp), s.numAttempts + 1, by simp [sendBody, hlimit]⟩)
    · exact .inr (.inr ⟨hnot _ (by simp), s.conn, s.numAttempts + 1, .inl rfl, by
        simp [sendBody, hlimit]⟩)

/-- Leaving the loop early is giving up. -/
theorem sendBody_leave {data : PiVisionData} (s : SendState) (outcome : SendOutcome)
    (s' : SendState) (h : sendBody data s outcome = .leave s') : s'.gaveUp = true := by
  rcases sendBody_cases data s outcome with
    ⟨k, -, hb⟩ | ⟨-, n, hb⟩ | ⟨-, conn, n, -, hb⟩ <;> rw [hb] at h <;> cases h
  rfl

/-- The connection a call was made on, given up or not. -/
def SameConn (conn : EthTermConnection) (s : SendState) : Prop :=
  s.conn = conn ∨ s.conn = conn.deactivate

theorem sameConn_sendBody {data : PiVisionData} {conn : EthTermConnection} (s : SendState)
    (outcome : SendOutcome) (same : SameConn conn s) :
    SameConn conn (sendBody data s outcome).state := by
  have hgone : s.conn.deactivate = conn.deactivate := by
    rcases same with h | h <;> rw [h]
    rfl
  rcases sendBody_cases data s outcome with
    ⟨k, -, hb⟩ | ⟨-, n, hb⟩ | ⟨-, c, n, hc, hb⟩ <;> rw [hb]
  · exact same
  · exact .inr hgone
  · rcases hc with rfl | rfl
    · exact same
    · exact .inr hgone

/-- `SendPayload` does nothing to the connection but give it up. -/
theorem sameConn_sendPayload {data : PiVisionData} {conn : EthTermConnection}
    (script : List SendOutcome) {s : SendState} (same : SameConn conn s) :
    SameConn conn (sendPayload data script s).state :=
  loop_invariant (fun s a _ => sameConn_sendBody s a) script same

theorem sameConn_send {data : PiVisionData} {conn : EthTermConnection}
    (script : List SendOutcome) {s : SendState} (same : SameConn conn s) :
    SameConn conn (send data script s).state := by
  have hheader : SameConn conn (sendPayload (header data) script s).state :=
    sameConn_sendPayload script same
  unfold send andThen sendHeader
  -- the payload is offered however `SendHeader` ended, unless it is still waiting
  cases hrun : sendPayload (header data) script s with
  | waiting t => rwa [hrun] at hheader
  | returned t rest =>
    rw [hrun] at hheader
    exact sameConn_sendPayload rest hheader

/-- What can be seen of the sender from the peer's side and by later calls. -/
def SendState.obs (s : SendState) : List UInt8 × Bool := (s.stream, s.gaveUp)

/-- The effect of one attempt on the stream: an accepting attempt adds bytes to it, any
other leaves it and may end in giving up. -/
def AttemptEffect (before : List UInt8 × Bool) (outcome : SendOutcome)
    (after : List UInt8 × Bool) : Prop :=
  (outcome.Accepts ∧ ∃ chunk, chunk ≠ [] ∧ after = (before.1 ++ chunk, before.2)) ∨
    (¬ outcome.Accepts ∧ after.1 = before.1 ∧ (before.2 = true → after.2 = true))

theorem attemptEffect_sendBody (data : PiVisionData) (s : SendState) (outcome : SendOutcome)
    (hguard : sendGuard data s = true) :
    AttemptEffect s.obs outcome (sendBody data s outcome).state.obs := by
  have hless : s.numBytesSent < data.size := by simpa [sendGuard] using hguard
  rcases sendBody_cases data s outcome with
    ⟨k, rfl, h⟩ | ⟨hnot, n, h⟩ | ⟨hnot, conn, n, -, h⟩ <;> rw [h]
  -- inside the loop some byte is left to offer, so an accepted chunk is not empty
  · refine .inl ⟨⟨k, rfl⟩, (sendBuffer data s).take (k + 1), ?_, rfl⟩
    apply List.ne_nil_of_length_pos
    rw [List.length_take, length_sendBuffer]
    omega
  · exact .inr ⟨hnot, rfl, fun _ => rfl⟩
  · exact .inr ⟨hnot, rfl, fun hgave => hgave⟩

/-- A give-up stays on record. -/
theorem AttemptEffect.gaveUp {before after : List UInt8 × Bool} {outcome : SendOutcome}
    (h : AttemptEffect before outcome after) (hgave : before.2 = true) : after.2 = true := by
  rcases h with ⟨-, chunk, -, rfl⟩ | ⟨-, -, hkeeps⟩
  · exact hgave
  · exact hkeeps hgave

theorem stepwise_sendPayload (data : PiVisionData) :
    Stepwise SendState.obs AttemptEffect (sendPayload data) :=
  (stepwise_loop (attemptEffect_sendBody data)).comap fun _ => rfl

theorem stepwise_send (data : PiVisionData) :
    Stepwise SendState.obs AttemptEffect (send data) :=
  (stepwise_sendPayload _).andThen (stepwise_sendPayload _)

theorem stepwise_sendAll (payloads : List PiVisionData) :
    Stepwise SendState.obs AttemptEffect (sendAll payloads) := by
  induction payloads with
  | nil =>
    exact ⟨fun s => ⟨s, .inr rfl, rfl⟩, fun a h => by cases h; rfl, fun a h => by cases h⟩
  | cons data rest ih => exact (stepwise_send data).andThen ih

/-! ## The loop invariant -/

/-- What holds at every moment of a `SendPayload` call that no call before it and no
round of it has given up: the stream has grown by exactly the part sent. -/
structure SendInv (data : PiVisionData) (stream : List UInt8) (s : SendState) : Prop where
  stream_eq : s.gaveUp = false → s.stream = stream ++ data.bytes.take s.numBytesSent
  bounded : s.numBytesSent ≤ data.size

theorem sendInv_body {data : PiVisionData} {stream : List UInt8} (s : SendState)
    (outcome : SendOutcome) (inv : SendInv data stream s) :
    SendInv data stream (sendBody data s outcome).state := by
  have hbounded := inv.bounded
  rcases sendBody_cases data s outcome with
    ⟨k, -, h⟩ | ⟨-, n, h⟩ | ⟨-, conn, n, -, h⟩ <;> rw [h]
  · constructor
    · intro hgave
      simp only [Flow.state_next] at hgave ⊢
      rw [inv.stream_eq hgave, sendBuffer_eq, List.take_take, List.append_assoc,
        List.length_take, List.length_drop, PiVisionData.length_bytes, ← List.take_add]
      congr 2
      omega
    · simp only [Flow.state_next, List.length_take, length_sendBuffer]
      omega
  · exact ⟨fun hgave => by simp at hgave, hbounded⟩
  · exact ⟨fun hgave => inv.stream_eq hgave, hbounded⟩

/-- A program puts the given bytes on the stream: a front part of them at every moment
at which no call has given up, and all of them once it has returned. -/
structure Puts (f : List SendOutcome → SendState → Ending SendState SendOutcome)
    (bytes : List UInt8) : Prop where
  stepwise : Stepwise SendState.obs AttemptEffect f
  front : ∀ script s, (f script s).state.gaveUp = false →
    ∃ part, part <+: bytes ∧ (f script s).state.stream = s.stream ++ part
  whole : ∀ script s s' rest, f script s = .returned s' rest → s'.gaveUp = false →
    s'.stream = s.stream ++ bytes

/-- A program that ends without a give-up on record started without one. -/
theorem Puts.gaveUp_eq_false {f : List SendOutcome → SendState → Ending SendState SendOutcome}
    {bytes : List UInt8} (h : Puts f bytes) {script : List SendOutcome} {s : SendState}
    (kept : (f script s).state.gaveUp = false) : s.gaveUp = false := by
  by_contra hgave
  have hstays := h.stepwise.preserves (P := fun w => w.2 = true) (fun _ _ _ heff => heff.gaveUp)
    (s := s) (by simpa [SendState.obs] using hgave) script
  simp only [SendState.obs] at hstays
  rw [kept] at hstays
  cases hstays

/-- Programs in sequence put their bytes one behind the other. -/
theorem Puts.andThen {f g : List SendOutcome → SendState → Ending SendState SendOutcome}
    {xs ys : List UInt8} (hf : Puts f xs) (hg : Puts g ys) :
    Puts (ScriptLoop.andThen f g) (xs ++ ys) where
  stepwise := hf.stepwise.andThen hg.stepwise
  front script s kept := by
    unfold ScriptLoop.andThen at kept ⊢
    cases hrun : f script s with
    | waiting s₁ =>
      rw [hrun] at kept
      -- still in the first program, whose part is also a front part of the whole
      obtain ⟨part, hpart, hstream⟩ := hf.front script s (by rw [hrun]; exact kept)
      rw [hrun] at hstream
      exact ⟨part, hpart.trans (List.prefix_append xs ys), hstream⟩
    | returned s₁ rest =>
      rw [hrun] at kept
      obtain ⟨part, hpart, hstream⟩ := hg.front rest s₁ kept
      -- the first program is through, so all of its bytes stand before the part of the second
      refine ⟨xs ++ part, (List.prefix_append_right_inj xs).mpr hpart, ?_⟩
      rw [hstream, hf.whole script s s₁ rest hrun (hg.gaveUp_eq_false kept), List.append_assoc]
  whole script s s' rest h kept := by
    unfold ScriptLoop.andThen at h
    cases hrun : f script s with
    | waiting s₁ => rw [hrun] at h; cases h
    | returned s₁ left =>
      rw [hrun] at h
      have hfirst : s₁.gaveUp = false :=
        hg.gaveUp_eq_false (by rw [show g left s₁ = _ from h]; exact kept)
      rw [hg.whole left s₁ s' rest h kept, hf.whole script s s₁ left hrun hfirst,
        List.append_assoc]

private theorem sendPayload_inv {data : PiVisionData} {script : List SendOutcome} {s : SendState} :
    SendInv data s.stream (sendPayload data script s).state :=
  loop_invariant (fun s a _ => sendInv_body s a) script
    ⟨fun _ => by simp [SendState.enter], by simp [SendState.enter]⟩

/-- **Specification of `SendPayload`.** -/
theorem puts_sendPayload (data : PiVisionData) : Puts (sendPayload data) data.bytes where
  stepwise := stepwise_sendPayload data
  front script s kept := ⟨_, List.take_prefix _ _, sendPayload_inv.stream_eq kept⟩
  whole script s s' rest hrun kept := by
    have hinv : SendInv data s.stream (sendPayload data script s).state := sendPayload_inv
    rw [hrun] at hinv
    rcases loop_returned (fun s a s' => sendBody_leave s a s') hrun with hdone | hgiven
    · have hall : data.bytes.length ≤ s'.numBytesSent := by simpa [sendGuard] using hdone
      have hstream : s'.stream = s.stream ++ data.bytes.take s'.numBytesSent :=
        hinv.stream_eq kept
      rwa [List.take_of_length_le hall] at hstream
    · rw [kept] at hgiven
      cases hgiven

/-- **Specification of `Send`.** -/
theorem puts_send (data : PiVisionData) : Puts (send data) (frameOf data) := by
  rw [frameOf_eq]
  exact (puts_sendPayload (header data)).andThen (puts_sendPayload data)

/-- The concatenation of the frames of the payloads, in call order. -/
def framesOf (payloads : List PiVisionData) : List UInt8 :=
  encodeFrames 4 (payloads.map PiVisionData.bytes)

@[simp] theorem framesOf_nil : framesOf [] = [] := rfl

@[simp] theorem framesOf_cons (data : PiVisionData) (payloads : List PiVisionData) :
    framesOf (data :: payloads) = frameOf data ++ framesOf payloads := rfl

/-- **Specification of a sequence of `Send` calls.** -/
theorem puts_sendAll (payloads : List PiVisionData) :
    Puts (sendAll payloads) (framesOf payloads) := by
  induction payloads with
  | nil =>
    exact ⟨stepwise_sendAll [], fun script s _ => ⟨[], by simp, by simp [sendAll]⟩,
      fun script s s' rest h _ => by cases h; simp⟩
  -- the call at the head, then the calls behind it
  | cons data rest ih => exact (puts_send data).andThen ih

/-! ## Termination under a fair socket -/

/-- The send loop is a retrying loop. -/
theorem retries_sendPayload (data : PiVisionData) (conn : EthTermConnection) :
    Retries (sendGuard data) (sendBody data) SendOutcome.Accepts SendOutcome.Fails
      maxSendAttempts (fun s => s.conn = conn ∧ s.gaveUp = false)
      (fun s => data.size - s.numBytesSent) (fun s => s.numAttempts) where
  progress := by
    rintro s _ ⟨hconn, hkept⟩ hguard ⟨k, rfl⟩
    have hless : s.numBytesSent < data.size := by simpa [sendGuard] using hguard
    have hpos : 0 < ((sendBuffer data s).take (k + 1)).length := by
      rw [List.length_take, length_sendBuffer]
      omega
    refine ⟨{ s with
      stream := s.stream ++ (sendBuffer data s).take (k + 1)
      numAttempts := 0
      numBytesSent := s.numBytesSent + ((sendBuffer data s).take (k + 1)).length },
      by simp [sendBody], ⟨hconn, hkept⟩, rfl, ?_⟩
    simp only
    omega
  retry := by
    rintro s _ hinv hguard rfl - htries
    have hlimit : ¬ maxSendAttempts < s.numAttempts + 1 := by omega
    exact ⟨{ s with numAttempts := s.numAttempts + 1 }, by simp [sendBody, hlimit], hinv, rfl, rfl⟩

/-- A program returns under every fair socket, without giving up and with the
connection as it was. -/
def Completes (f : List SendOutcome → SendState → Ending SendState SendOutcome) : Prop :=
  ∀ answers, Fair SendOutcome.Accepts SendOutcome.Fails maxSendAttempts answers →
    ∀ s, s.gaveUp = false → ∃ n s', s'.conn = s.conn ∧ s'.gaveUp = false ∧
      ∀ tail, f (firstAnswers answers n ++ tail) s = .returned s' tail

theorem Completes.andThen {f g : List SendOutcome → SendState → Ending SendState SendOutcome}
    (hf : Completes f) (hg : Completes g) : Completes (ScriptLoop.andThen f g) := by
  intro answers fair s kept
  obtain ⟨n₁, s₁, hconn₁, hkept₁, hrun₁⟩ := hf answers fair s kept
  obtain ⟨n₂, s₂, hconn₂, hkept₂, hrun₂⟩ := hg _ (fair.shift n₁) s₁ hkept₁
  refine ⟨n₁ + n₂, s₂, hconn₂.trans hconn₁, hkept₂, fun tail => ?_⟩
  unfold ScriptLoop.andThen
  rw [firstAnswers_add, List.append_assoc, hrun₁]
  exact hrun₂ tail

theorem completes_sendPayload (data : PiVisionData) : Completes (sendPayload data) := by
  intro answers fair s kept
  obtain ⟨n, s', ⟨hconn, hkept⟩, -, hrun⟩ :=
    loop_returns_of_fair (retries_sendPayload data s.conn) fair (s := s.enter) ⟨rfl, kept⟩ rfl
  exact ⟨n, s', hconn, hkept, hrun⟩

theorem completes_send (data : PiVisionData) : Completes (send data) :=
  (completes_sendPayload _).andThen (completes_sendPayload _)

theorem completes_sendAll (payloads : List PiVisionData) : Completes (sendAll payloads) := by
  induction payloads with
  | nil => exact fun answers _ s kept => ⟨0, s, rfl, kept, fun tail => rfl⟩
  | cons data rest ih => exact (completes_send data).andThen ih

end EthTermConnection

end PiVision
