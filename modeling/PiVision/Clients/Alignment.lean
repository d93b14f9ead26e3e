import PiVision.Clients.JavaClient
import PiVision.Lib.Run

/-!
# Frame alignment of the Java client

The client reads a stream of frames with a timeout that may strike in any read, between any
two bytes. A read that is cut short has consumed what it got, and the client goes on with a
length; so it stays at the frame boundaries as long as a timeout finds nothing of a frame
consumed and every length is one that an `int` holds, and only then.
-/

namespace PiVision

open Machine LittleEndian Framing

/-- The client, and the bytes of the server's stream that it has not consumed. -/
structure JavaStream where
  client : JavaClient
  rest : List UInt8

/-- What can happen: a read gets so many bytes beyond the first one, it times out, it finds
the end of the stream, or the client goes on with its ack. -/
inductive JavaAction
  | read (extra : ℕ)
  | timeout
  | endOfStream
  | acknowledge
  deriving DecidableEq, Repr

/-- A payload that a frame can carry: its length is a word of four bytes. -/
structure FramePayload where
  bytes : List UInt8
  fits : bytes.length < 2 ^ 32

namespace JavaStream

/-- The client just connected, and the frames that the server writes. -/
def start (payloads : List (List UInt8)) : JavaStream := ⟨.init, encodeFrames 4 payloads⟩

/-- The bytes that a read gets. -/
def chunk (s : JavaStream) (extra : ℕ) : List UInt8 :=
  s.rest.take (min s.client.missing (extra + 1))

/-- A step of the client while it is connected. -/
def connectedStep (s : JavaStream) : JavaAction → JavaStream
  | .read extra => ⟨s.client.receive (s.chunk extra), s.rest.drop (s.chunk extra).length⟩
  | .timeout => { s with client := s.client.timeout }
  | .endOfStream => { s with client := s.client.endOfStream }
  | .acknowledge => { s with client := s.client.acknowledge.1 }

def step (s : JavaStream) (action : JavaAction) : JavaStream :=
  if s.client.state = .connected then s.connectedStep action else s

/-- A payload that the client passes on. -/
def IsUpdate (payload : List UInt8) : Prop :=
  payload.length ≠ 0 ∧ payload.length ≠ 4 ∧ payload.length < 2 ^ 31

instance : DecidablePred IsUpdate := fun _ => inferInstanceAs (Decidable (_ ∧ _ ∧ _))

/-- The payloads that the client is to pass on. -/
def toUpdate (payloads : List (List UInt8)) : List (List UInt8) :=
  payloads.filter fun payload => IsUpdate payload

/-- The bytes ahead begin a frame. -/
def AtFrame (payloads : List (List UInt8)) (ahead : List UInt8) : Prop :=
  ∃ done todo, payloads = done ++ todo ∧ ahead = encodeFrames 4 todo

/-- The law: what has been passed on is in order what was to be passed on, and every length
that is read, or will be read behind a timeout, is that of a frame. -/
structure Law (payloads : List (List UInt8)) (s : JavaStream) : Prop where
  updates : s.client.updates <+: toUpdate payloads
  lengths : s.client.state = .connected → ∀ got, s.client.point = .readInt got →
    AtFrame payloads (got ++ s.rest)
  behind_timeout : s.client.state = .connected → s.client.point = .timedOut →
    AtFrame payloads s.rest

/-- A read does not complete a length of `2 ^ 31` or more, and a timeout strikes between two
frames. -/
def KeepsAlignment (s : JavaStream) : JavaAction → Prop
  | .read extra => ∀ got, s.client.point = .readInt got → (got ++ s.chunk extra).length = 4 →
    leValue (got ++ s.chunk extra) < 2 ^ 31
  | .timeout => s.client.consumed = []
  | .endOfStream | .acknowledge => True

/-- The client is connected and takes part in the step. -/
def Keeps (s : JavaStream) (action : JavaAction) : Prop :=
  s.client.state = .connected → s.KeepsAlignment action

/-- Where a client that is aligned stands in the frames that are left. -/
inductive Position (s : JavaStream) (todo : List (List UInt8)) : Prop
  | closed (state : s.client.state ≠ .connected)
  | header {got : List UInt8} (point : s.client.point = .readInt got) (short : got.length < 4)
      (ahead : got ++ s.rest = encodeFrames 4 todo)
  | payload {got payload : List UInt8} {others : List (List UInt8)}
      (frames : todo = payload :: others)
      (point : s.client.point = .readFully payload.length got)
      (positive : 0 < payload.length) (small : payload.length < 2 ^ 31)
      (short : got.length < payload.length)
      (ahead : got ++ s.rest = payload ++ encodeFrames 4 others)
  | read {payload : List UInt8} {others : List (List UInt8)} (frames : todo = payload :: others)
      (point : s.client.point = .payloadRead payload) (positive : 0 < payload.length)
      (small : payload.length < 2 ^ 31) (ahead : s.rest = encodeFrames 4 others)
  | timedOut (point : s.client.point = .timedOut) (ahead : s.rest = encodeFrames 4 todo)

/-- What holds between two steps of a client that is aligned. -/
def Aligned (payloads : List (List UInt8)) (s : JavaStream) : Prop :=
  ∃ done todo, payloads = done ++ todo ∧ s.client.updates = toUpdate done ∧ Position s todo

variable {payloads : List (List UInt8)} {s : JavaStream}

theorem aligned_start (payloads : List (List UInt8)) : Aligned payloads (start payloads) :=
  ⟨[], payloads, rfl, rfl, .header rfl (by simp) rfl⟩

theorem Aligned.law (aligned : Aligned payloads s) : Law payloads s := by
  obtain ⟨done, todo, rfl, hupdates, hposition⟩ := aligned
  refine ⟨?_, fun hconnected got hpoint => ?_, fun hconnected hpoint => ?_⟩
  · rw [hupdates, toUpdate, toUpdate, List.filter_append]
    exact List.prefix_append _ _
  · cases hposition with
    | closed hstate => exact absurd hconnected hstate
    | header hpoint' _ hahead =>
      obtain rfl := ConnectedPoint.readInt.inj (hpoint'.symm.trans hpoint)
      exact ⟨done, todo, rfl, hahead⟩
    | payload _ hpoint' | read _ hpoint' | timedOut hpoint' =>
      exact absurd (hpoint'.symm.trans hpoint) (by simp)
  · cases hposition with
    | closed hstate => exact absurd hconnected hstate
    | timedOut _ hahead => exact ⟨done, todo, rfl, hahead⟩
    | header hpoint' | payload _ hpoint' | read _ hpoint' =>
      exact absurd (hpoint'.symm.trans hpoint) (by simp)

/-! ## The steps -/

/-- What a read gets, it takes from the front of the stream. -/
theorem chunk_append_drop (s : JavaStream) (extra : ℕ) :
    s.chunk extra ++ s.rest.drop (s.chunk extra).length = s.rest :=
  take_append_drop_length_take _ _

theorem length_chunk_le (s : JavaStream) (extra : ℕ) :
    (s.chunk extra).length ≤ s.client.missing := by
  rw [chunk, List.length_take]
  omega

/-- The length that a client at a frame boundary reads is that of a frame. -/
theorem leValue_of_aligned (fits : ∀ p ∈ payloads, p.length < 256 ^ 4)
    (aligned : Aligned payloads s) (connected : s.client.state = .connected) {got : List UInt8}
    (point : s.client.point = .readInt got) {extra : ℕ}
    (whole : (got ++ s.chunk extra).length = 4) :
    ∃ payload ∈ payloads, leValue (got ++ s.chunk extra) = payload.length := by
  obtain ⟨done, todo, rfl, -, hposition⟩ := aligned
  cases hposition with
  | closed hstate => exact absurd connected hstate
  | payload _ hpoint' | read _ hpoint' | timedOut hpoint' =>
    exact absurd (hpoint'.symm.trans point) (by simp)
  | header hpoint' _ hahead =>
    obtain rfl := ConnectedPoint.readInt.inj (hpoint'.symm.trans point)
    rw [← s.chunk_append_drop extra, ← List.append_assoc] at hahead
    obtain ⟨payload, others, rfl, hvalue, -⟩ := encodeFrames_eq_header 4 whole
      (fun p hp => fits p (List.mem_append_right _ hp)) (by decide) hahead
    exact ⟨payload, by simp, hvalue⟩

/-- The payload that has been read joins the updates if it is to. -/
theorem toUpdate_concat (done : List (List UInt8)) {payload : List UInt8}
    (positive : 0 < payload.length) (small : payload.length < 2 ^ 31) :
    toUpdate (done ++ [payload]) =
      if 4 ≠ payload.length then toUpdate done ++ [payload] else toUpdate done := by
  by_cases hfour : 4 = payload.length
  · simp [toUpdate, IsUpdate, ← hfour]
  · have hupdate : IsUpdate payload := ⟨by omega, Ne.symm hfour, small⟩
    simp [toUpdate, hupdate, hfour]

/-- A read inside the frame of a payload. -/
theorem position_read_payload {got payload : List UInt8} {others : List (List UInt8)}
    (point : s.client.point = .readFully payload.length got) (positive : 0 < payload.length)
    (small : payload.length < 2 ^ 31) (short : got.length < payload.length)
    (ahead : got ++ s.rest = payload ++ encodeFrames 4 others) (extra : ℕ) :
    Position (s.connectedStep (.read extra)) (payload :: others) := by
  have hsplit := s.chunk_append_drop extra
  have hbound := s.length_chunk_le extra
  rw [JavaClient.missing_of_readFully point] at hbound
  have hahead : (got ++ s.chunk extra) ++ s.rest.drop (s.chunk extra).length =
      payload ++ encodeFrames 4 others := by
    rw [List.append_assoc, hsplit, ahead]
  by_cases hmore : (got ++ s.chunk extra).length < payload.length
  · refine .payload rfl ?_ positive small hmore hahead
    rw [connectedStep, JavaClient.receive_of_part point hmore]
  · have hlength : (got ++ s.chunk extra).length = payload.length :=
      length_append_of_missing (Nat.le_of_lt short) hbound hmore
    obtain ⟨hpayload, hrest⟩ := List.append_inj hahead hlength
    refine .read rfl ?_ positive small hrest
    rw [connectedStep, JavaClient.receive_of_whole point hlength, hpayload]

/-- A read inside a header: a length of zero ends the frame, a positive one leads on to the
payload. -/
theorem aligned_read_header {done todo : List (List UInt8)} {got : List UInt8}
    (fits : ∀ p ∈ todo, p.length < 256 ^ 4) (updates : s.client.updates = toUpdate done)
    (point : s.client.point = .readInt got) (short : got.length < 4)
    (ahead : got ++ s.rest = encodeFrames 4 todo) (extra : ℕ)
    (keeps : s.KeepsAlignment (.read extra)) :
    Aligned (done ++ todo) (s.connectedStep (.read extra)) := by
  have hsplit := s.chunk_append_drop extra
  have hbound := s.length_chunk_le extra
  rw [JavaClient.missing_of_readInt point] at hbound
  have hahead : (got ++ s.chunk extra) ++ s.rest.drop (s.chunk extra).length =
      encodeFrames 4 todo := by
    rw [List.append_assoc, hsplit, ahead]
  by_cases hmore : (got ++ s.chunk extra).length < 4
  · rw [connectedStep, JavaClient.receive_of_short point hmore]
    exact ⟨done, todo, rfl, updates, .header rfl hmore hahead⟩
  have hlength : (got ++ s.chunk extra).length = 4 :=
    length_append_of_missing (Nat.le_of_lt short) hbound hmore
  have hsmall := keeps got point hlength
  -- the header is that of the first frame that is left
  obtain ⟨payload, others, rfl, hvalue, hrest⟩ :=
    encodeFrames_eq_header 4 hlength fits (by decide) hahead
  by_cases hpositive : 0 < payload.length
  · rw [connectedStep, JavaClient.receive_of_positive point hlength (hvalue ▸ hpositive) hsmall,
      hvalue]
    exact ⟨done, payload :: others, rfl, updates,
      .payload rfl rfl hpositive (hvalue ▸ hsmall) hpositive hrest⟩
  · have hempty : payload = [] := List.eq_nil_of_length_eq_zero (by omega)
    have hnone : toUpdate (done ++ [payload]) = toUpdate done := by
      simp [toUpdate, IsUpdate, hempty]
    have hother : ¬(0 < leValue (got ++ s.chunk extra) ∧
        leValue (got ++ s.chunk extra) < 2 ^ 31) := by
      rw [hvalue]
      exact fun h => hpositive h.1
    rw [connectedStep, JavaClient.receive_of_not_positive point hlength hother]
    refine ⟨done ++ [payload], others, by simp, updates.trans hnone.symm,
      .header rfl (by simp) ?_⟩
    rw [hrest, hempty]
    rfl

/-- A client that is in no read takes nothing from the stream: only its ack changes it. -/
theorem connectedStep_of_waiting {action : JavaAction}
    (waiting : (∃ payload, s.client.point = .payloadRead payload) ∨ s.client.point = .timedOut)
    (no_ack : action ≠ .acknowledge) : s.connectedStep action = s := by
  have hmissing : s.client.missing = 0 := by
    rcases waiting with ⟨payload, hpoint⟩ | hpoint
    · simp only [JavaClient.missing, hpoint]
    · simp only [JavaClient.missing, hpoint]
  have hchunk (extra : ℕ) : s.chunk extra = [] := by
    rw [chunk, hmissing, Nat.zero_min, List.take_zero]
  have hclient : (∀ chunk, s.client.receive chunk = s.client) ∧ s.client.timeout = s.client ∧
      s.client.endOfStream = s.client := by
    rcases waiting with ⟨payload, hpoint⟩ | hpoint
    · simp only [JavaClient.receive, JavaClient.timeout, JavaClient.endOfStream, hpoint]
      exact ⟨fun _ => trivial, trivial, trivial⟩
    · simp only [JavaClient.receive, JavaClient.timeout, JavaClient.endOfStream, hpoint]
      exact ⟨fun _ => trivial, trivial, trivial⟩
  obtain ⟨hreceive, htimeout, hend⟩ := hclient
  cases action with
  | read extra =>
    rw [connectedStep, hreceive, hchunk]
    rfl
  | timeout => rw [connectedStep, htimeout]
  | endOfStream => rw [connectedStep, hend]
  | acknowledge => exact absurd rfl no_ack

/-- **One step** that keeps the alignment. -/
theorem aligned_step (fits : ∀ p ∈ payloads, p.length < 256 ^ 4) (action : JavaAction)
    (aligned : Aligned payloads s) (keeps : s.Keeps action) :
    Aligned payloads (s.step action) := by
  by_cases hconnected : s.client.state = .connected
  swap
  · rw [step, if_neg hconnected]
    exact aligned
  rw [step, if_pos hconnected]
  replace keeps := keeps hconnected
  obtain ⟨done, todo, rfl, hupdates, hposition⟩ := aligned
  have hclosed (client : JavaClient) (hstate : client.state ≠ .connected)
      (hsame : client.updates = s.client.updates) :
      Aligned (done ++ todo) { s with client := client } :=
    ⟨done, todo, rfl, hsame.trans hupdates, .closed hstate⟩
  cases hposition with
  | closed hstate => exact absurd hconnected hstate
  | @header got hpoint hshort hahead =>
    cases action with
    | read extra =>
      exact aligned_read_header (fun p hp => fits p (List.mem_append_right _ hp)) hupdates hpoint
        hshort hahead extra keeps
    | timeout =>
      have hempty : got = [] := by
        simpa only [KeepsAlignment, JavaClient.consumed, hpoint] using keeps
      rw [connectedStep, JavaClient.timeout, hpoint]
      rw [hempty, List.nil_append] at hahead
      exact ⟨done, todo, rfl, hupdates, .timedOut rfl hahead⟩
    | endOfStream =>
      rw [connectedStep, JavaClient.endOfStream, hpoint]
      exact hclosed _ (by simp) rfl
    | acknowledge =>
      rw [connectedStep, JavaClient.acknowledge, hpoint]
      exact ⟨done, todo, rfl, hupdates, .header hpoint hshort hahead⟩
  | @payload got payload others hframes hpoint hpositive hsmall hshort hahead =>
    cases action with
    | read extra =>
      refine ⟨done, todo, rfl, ?_, ?_⟩
      · rw [connectedStep, JavaClient.receive, hpoint]
        dsimp only
        split <;> exact hupdates
      · rw [hframes]
        exact position_read_payload hpoint hpositive hsmall hshort hahead extra
    | timeout =>
      -- the header of the frame has been consumed
      have hconsumed : s.client.consumed ≠ [] := by
        simp [JavaClient.consumed, hpoint, leBytes]
      exact absurd keeps hconsumed
    | endOfStream =>
      rw [connectedStep, JavaClient.endOfStream, hpoint]
      exact hclosed _ (by simp) rfl
    | acknowledge =>
      rw [connectedStep, JavaClient.acknowledge, hpoint]
      exact ⟨done, todo, rfl, hupdates,
        .payload hframes hpoint hpositive hsmall hshort hahead⟩
  | @read payload others hframes hpoint hpositive hsmall hahead =>
    have hstay : Aligned (done ++ todo) s :=
      ⟨done, todo, rfl, hupdates, .read hframes hpoint hpositive hsmall hahead⟩
    by_cases hack : action = .acknowledge
    · rw [hack, connectedStep, JavaClient.acknowledge, hpoint, hframes]
      refine ⟨done ++ [payload], others, by simp, ?_, .header rfl (by simp) hahead⟩
      rw [toUpdate_concat done hpositive hsmall, ← hupdates]
    · rw [connectedStep_of_waiting (.inl ⟨payload, hpoint⟩) hack]
      exact hstay
  | timedOut hpoint hahead =>
    have hstay : Aligned (done ++ todo) s :=
      ⟨done, todo, rfl, hupdates, .timedOut hpoint hahead⟩
    by_cases hack : action = .acknowledge
    · rw [hack, connectedStep, JavaClient.acknowledge, hpoint]
      exact ⟨done, todo, rfl, hupdates, .header rfl (by simp) hahead⟩
    · rw [connectedStep_of_waiting (.inr hpoint) hack]
      exact hstay

/-! ## What a step that does not keep the alignment does -/

/-- No frame begins behind a part of one. -/
theorem not_atFrame {done others : List (List UInt8)} {payload ahead : List UInt8}
    (behind : (encodeFrames 4 others).length < ahead.length)
    (before : ahead.length < (encodeFrames 4 (payload :: others)).length) :
    ¬AtFrame (done ++ payload :: others) ahead := by
  intro ⟨done', todo', hframes, hahead⟩
  rw [hahead] at behind before
  rcases length_encodeFrames_suffix 4 hframes with hle | hle
  · exact absurd behind (Nat.not_lt.mpr hle)
  · exact absurd before (Nat.not_lt.mpr hle)

/-- A timeout behind a part of a header. -/
theorem not_atFrame_header {done todo : List (List UInt8)} {got rest : List UInt8}
    (consumed : got ≠ []) (short : got.length < 4) (ahead : got ++ rest = encodeFrames 4 todo) :
    ¬AtFrame (done ++ todo) rest := by
  have hgot := List.length_pos_iff.mpr consumed
  have hlength := congrArg List.length ahead
  rw [List.length_append] at hlength
  cases todo with
  | nil =>
    rw [encodeFrames_nil, List.length_nil] at hlength
    omega
  | cons payload others =>
    have hcons := length_encodeFrames_cons 4 payload others
    exact not_atFrame (by omega) (by omega)

/-- **One step** keeps the law only if it keeps the alignment. -/
theorem keeps_of_law (fits : ∀ p ∈ payloads, p.length < 256 ^ 4) (action : JavaAction)
    (aligned : Aligned payloads s) (law : Law payloads (s.step action)) : s.Keeps action := by
  intro hconnected
  rw [step, if_pos hconnected] at law
  obtain ⟨done, todo, rfl, -, hposition⟩ := aligned
  cases action with
  | endOfStream | acknowledge => trivial
  | timeout =>
    by_contra hconsumed
    cases hposition with
    | closed hstate => exact hstate hconnected
    | read _ hpoint | timedOut hpoint =>
      apply hconsumed
      simp only [KeepsAlignment, JavaClient.consumed, hpoint]
    | @header got hpoint hshort hahead =>
      have hgot : got ≠ [] := by
        simpa only [KeepsAlignment, JavaClient.consumed, hpoint] using hconsumed
      rw [connectedStep, JavaClient.timeout, hpoint] at law
      exact not_atFrame_header hgot hshort hahead (law.behind_timeout hconnected rfl)
    | @payload got payload others hframes hpoint hpositive _ hshort hahead =>
      have hlength := congrArg List.length hahead
      rw [List.length_append, List.length_append] at hlength
      have hcons := length_encodeFrames_cons 4 payload others
      have hbetween : ¬AtFrame (done ++ payload :: others) s.rest :=
        not_atFrame (by omega) (by omega)
      rw [connectedStep, JavaClient.timeout, hpoint, hframes] at law
      exact hbetween (law.behind_timeout hconnected rfl)
  | read extra =>
    intro got hpoint hlength
    by_contra hlarge
    cases hposition with
    | closed hstate => exact hstate hconnected
    | payload _ hpoint' | read _ hpoint' | timedOut hpoint' =>
      exact absurd (hpoint'.symm.trans hpoint) (by simp)
    | header hpoint' _ hahead =>
      obtain rfl := ConnectedPoint.readInt.inj (hpoint'.symm.trans hpoint)
      rw [← s.chunk_append_drop extra, ← List.append_assoc] at hahead
      obtain ⟨payload, others, rfl, hvalue, hrest⟩ := encodeFrames_eq_header 4 hlength
        (fun p hp => fits p (List.mem_append_right _ hp)) (by decide) hahead
      rw [connectedStep, JavaClient.receive_of_not_positive hpoint hlength (fun h => hlarge h.2)]
        at law
      -- the next length would be read from the payload
      have hnext := law.lengths hconnected [] rfl
      rw [List.nil_append, hrest] at hnext
      refine not_atFrame ?_ ?_ hnext
      · rw [List.length_append]
        omega
      · rw [length_encodeFrames_cons, List.length_append]
        omega

/-- **Frame alignment.** In every run, the law holds behind every step if and only if every
timeout strikes between two frames and no frame of `2 ^ 31` bytes or more is begun. -/
theorem law_iff_keeps (frames : List FramePayload) (actions : List JavaAction) :
    Along step (fun s action => Law (frames.map FramePayload.bytes) (s.step action))
        (start (frames.map FramePayload.bytes)) actions ↔
      Along step Keeps (start (frames.map FramePayload.bytes)) actions := by
  have hfits : ∀ p ∈ frames.map FramePayload.bytes, p.length < 256 ^ 4 := by
    intro p hp
    obtain ⟨frame, -, rfl⟩ := List.mem_map.mp hp
    exact frame.fits
  have hkeeps (s : JavaStream) (action : JavaAction)
      (aligned : Aligned (frames.map FramePayload.bytes) s) (keeps : s.Keeps action) :=
    aligned_step hfits action aligned keeps
  have hneeds (s : JavaStream) (action : JavaAction)
      (aligned : Aligned (frames.map FramePayload.bytes) s)
      (law : Law (frames.map FramePayload.bytes) (s.step action)) :=
    keeps_of_law hfits action aligned law
  exact along_law_iff hkeeps (fun s aligned => aligned.law) hneeds (aligned_start _) actions

/-- A timeout strikes behind the header of a frame of six bytes: the first four are taken
for a length, and the last two are passed on. -/
theorem law_broken_by_timeout :
    ¬Along step (fun s action => Law [[2, 0, 0, 0, 7, 7]] (s.step action))
      (start [[2, 0, 0, 0, 7, 7]])
      [.read 3, .timeout, .acknowledge, .read 3, .read 1, .acknowledge] := by
  intro ⟨_, _, _, _, _, hlaw, _⟩
  have hupdates := hlaw.updates
  revert hupdates
  decide

end JavaStream

end PiVision
