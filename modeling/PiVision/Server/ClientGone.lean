import PiVision.ImageData.DataTL
import PiVision.Server.Transfer

/-!
# A client that has gone

`SERVER_send` counts the bytes that `send` accepts and goes on behind an error. When the
client has gone before the last byte, nothing is accepted any more, and the call does not
return; no callback of the scheduler is called behind it. It returns `-1` for a context
without a client, and only then.
-/

namespace PiVision

open ScriptLoop

namespace DataTL

/-- `IMGDATATL_sendGrayscaleImage` with the answers of `send` in its call of `SERVER_send`: the
statics behind it, or `none` if that call has not returned. -/
def sendGrayscaleImageTo (s : DataTL) (connected : Bool) (buf : List UInt8)
    (answers : List (Option ℕ)) : Option DataTL :=
  if s.state = .sendData then
    match Server.send connected (bufToSend buf) answers with
    | .failed => some { s with numDroppedFramesAck := s.numDroppedFramesAck + 1 }
    | .sent _ => some { s with state := .waitForAck }
    | .sending _ => none
  else some { s with numDroppedFrames := s.numDroppedFrames + 1 }

/-- What that call of `SERVER_send` puts on the stream. -/
def sentGrayscaleImage (s : DataTL) (connected : Bool) (buf : List UInt8)
    (answers : List (Option ℕ)) : List UInt8 :=
  if s.state = .sendData then
    match Server.send connected (bufToSend buf) answers with
    | .failed => []
    | .sent stream | .sending stream => stream
  else []

/-- A call whose `SERVER_send` sends something and returns. -/
theorem sendGrayscaleImageTo_of_sent {s : DataTL} {connected : Bool} {buf stream : List UInt8}
    {answers : List (Option ℕ)} (idle : s.state = .sendData)
    (sent : Server.send connected (bufToSend buf) answers = .sent stream) :
    s.sendGrayscaleImageTo connected buf answers = some { s with state := .waitForAck } ∧
      s.sentGrayscaleImage connected buf answers = stream := by
  rw [sendGrayscaleImageTo, sentGrayscaleImage, if_pos idle, if_pos idle, sent]
  exact ⟨rfl, rfl⟩

/-- If the parts that `send` accepts go on as the frame does, all of it is sent to a client or
nothing, or the call has not returned and has sent the start of it. -/
theorem sentGrayscaleImage_cases {s : DataTL} {connected : Bool} {buf : List UInt8}
    {answers : List (Option ℕ)} (fits : (bufToSend buf).length < 2 ^ 31)
    (continues : s.state = .sendData → connected = true →
      Server.Continues (bufToSend buf) 0 answers) :
    (∃ t, s.sendGrayscaleImageTo connected buf answers = some t ∧
      (s.sentGrayscaleImage connected buf answers = [] ∨
        connected = true ∧ s.sentGrayscaleImage connected buf answers = bufToSend buf)) ∨
    (s.sendGrayscaleImageTo connected buf answers = none ∧ connected = true ∧
      s.sentGrayscaleImage connected buf answers <+: bufToSend buf) := by
  unfold sendGrayscaleImageTo sentGrayscaleImage
  by_cases hstate : s.state = .sendData
  · simp only [if_pos hstate]
    cases connected with
    | false => exact .inl ⟨_, rfl, .inl rfl⟩
    | true =>
      have hcontinues := continues hstate rfl
      cases hsend : Server.send true (bufToSend buf) answers with
      | failed => exact absurd hsend (Server.send_connected_ne_failed _ _)
      | sent stream =>
        exact .inl ⟨_, rfl, .inr ⟨rfl, (Server.send_eq_buffer_iff fits hsend).mpr hcontinues⟩⟩
      | sending stream => exact .inr ⟨rfl, rfl, Server.sending_isPrefix fits hsend hcontinues⟩
  · rw [if_neg hstate, if_neg hstate]
    exact .inl ⟨_, rfl, .inl rfl⟩

end DataTL

namespace Server

/-- From so many calls of `send` on they all fail. -/
def GoneFrom (results : ℕ → Option ℕ) (n : ℕ) : Prop := ∀ m, n ≤ m → results m = none

/-- How many bytes of the buffer a call of `send` accepts. -/
def taken (buf : List UInt8) : Option ℕ → ℕ
  | none => 0
  | some count => min count buf.length

/-- How many these calls accept. -/
def takenBytes (buf : List UInt8) (answers : List (Option ℕ)) : ℕ := (answers.map (taken buf)).sum

/-- `SERVER_send` returns `-1`, and the data transport, which was to send, stays so and counts
the frame. -/
structure EndsWithoutClient (connected : Bool) (buf : List UInt8) (results : ℕ → Option ℕ)
    (tl : DataTL) : Prop where
  failed : ∃ n, ∀ m, n ≤ m → send connected buf (firstAnswers results m) = .failed
  counted : ∃ n, ∀ m, n ≤ m →
    tl.sendGrayscaleImageTo connected buf (firstAnswers results m) =
      some { tl with numDroppedFramesAck := tl.numDroppedFramesAck + 1 }

section Calls

variable {buf : List UInt8} {answers : List (Option ℕ)} {results : ℕ → Option ℕ} {n : ℕ}

/-- A call whose client goes while bytes are left never returns. -/
theorem sending_of_goneFrom (gone : GoneFrom results n) (fits : buf.length < 2 ^ 31)
    (left : takenBytes buf (firstAnswers results n) < buf.length) (m : ℕ) :
    ∃ stream, send true buf (firstAnswers results m) = .sending stream := by
  have hle : takenBytes buf (firstAnswers results m) ≤ takenBytes buf (firstAnswers results n) :=
    sum_amount_le (taken buf) (fun k hk => by rw [gone k hk]; rfl) m
  obtain ⟨t, ht⟩ : ∃ t, loop (bytesLeft buf) (sendRound buf) (firstAnswers results m) ⟨0, []⟩ =
      .waiting t := by
    refine loop_waits_of_amount (fun s => s.sentBytes = s.stream.length)
      (fun s => s.stream.length) (taken buf) buf.length ?_ ?_ rfl ?_
    · exact fun s counted hless => (bytesLeft_iff fits counted).mpr hless
    · intro s answer counted hless
      cases answer with
      | none => exact ⟨s, rfl, counted, Nat.le_refl _⟩
      | some count =>
        refine ⟨_, rfl, ?_, ?_⟩
        · rw [List.length_append, counted]
          rfl
        · rw [List.length_append, List.length_take]
          exact Nat.le_refl _
    · rw [List.length_nil, Nat.zero_add]
      exact Nat.lt_of_le_of_lt hle left
  exact ⟨t.stream, by rw [send, if_pos rfl, ht]⟩

/-- **A send ends with `-1`** for a context without a client, and for no other one. With a
client that goes while bytes are left it does not end. -/
theorem endsWithoutClient_iff (connected : Bool) (buf : List UInt8) {tl : DataTL}
    (idle : tl.state = .sendData) (gone : GoneFrom results n) :
    (EndsWithoutClient connected buf results tl ↔ connected = false) ∧
      (connected = true → buf.length < 2 ^ 31 →
        takenBytes buf (firstAnswers results n) < buf.length →
          ∀ m, ∃ stream, send connected buf (firstAnswers results m) = .sending stream) := by
  refine ⟨⟨fun ends => ?_, ?_⟩, ?_⟩
  · obtain ⟨m, hfailed⟩ := ends.failed
    rw [← Bool.not_eq_true]
    rintro rfl
    exact send_connected_ne_failed buf _ (hfailed m (Nat.le_refl m))
  · rintro rfl
    refine ⟨⟨0, fun m _ => rfl⟩, 0, fun m _ => ?_⟩
    rw [DataTL.sendGrayscaleImageTo, if_pos idle]
    rfl
  · rintro rfl fits left
    exact sending_of_goneFrom gone fits left

/-- A context without a client. -/
theorem endsWithoutClient_disconnected :
    (EndsWithoutClient false [1, 2] (fun _ => none) .init ↔ false = false) ∧
      (false = true → [1, 2].length < 2 ^ 31 →
        takenBytes [1, 2] (firstAnswers (fun _ => none) 0) < [1, 2].length →
          ∀ m, ∃ stream, send false [1, 2] (firstAnswers (fun _ => none) m) = .sending stream) :=
  endsWithoutClient_iff false [1, 2] rfl fun _ _ => rfl

/-- A client that goes behind the first of two bytes. -/
theorem not_endsWithoutClient :
    GoneFrom (fun m => if m = 0 then some 1 else none) 1 ∧
      ¬EndsWithoutClient true [1, 2] (fun m => if m = 0 then some 1 else none) .init := by
  refine ⟨fun m hm => if_neg (by omega), fun ends => ?_⟩
  obtain ⟨m, hfailed⟩ := ends.failed
  exact send_connected_ne_failed _ _ (hfailed m (Nat.le_refl m))

end Calls

end Server

end PiVision
