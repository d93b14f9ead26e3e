import Mathlib.Data.Prod.Lex
import PiVision.Data.Appends
import PiVision.EthTerm.Receive

/-!
# Whether a receive ends

`Receive` counts its bytes in an `int32_t`, compares the count with a `uint32_t` and subtracts
it from one. Here is its loop with the integers of the source. While no more bytes are asked
for than an `int32_t` can count, a round of it is a round of `receiveBody`.

The loop ends whatever the socket does. An attempt that delivers bytes lowers the number of
those that are missing, at the cost of a new count of attempts; an attempt that comes back
empty lowers the number of attempts left, or leaves the loop with `active` cleared. A stop that
another thread handles meanwhile is in `EthTerm.Receive`.
-/

namespace PiVision

open ScriptLoop

/-- What an attempt meets at the socket, with the bytes there are for `recv`. -/
inductive SocketOutcome
  | pendingError
  | failed
  | closed
  | arrived (first : UInt8) (more : List UInt8)
  deriving DecidableEq, Repr

namespace SocketOutcome

/-- The bytes that wait at the socket. -/
def bytes : SocketOutcome → List UInt8
  | .arrived first more => first :: more
  | _ => []

/-- The bytes `recv` stores in the chunk buffer. -/
def delivered (maxChunkSize : UInt32) (outcome : SocketOutcome) : List UInt8 :=
  outcome.bytes.take maxChunkSize.toNat

/-- `chunkSize` behind the attempt: it stays at -1 if there is an error pending. -/
def chunkSize (maxChunkSize : UInt32) (outcome : SocketOutcome) : Int32 :=
  match outcome with
  | .pendingError => -1
  | .failed => -1
  | .closed => 0
  | .arrived _ _ => .ofNat (outcome.delivered maxChunkSize).length

/-- The outcome as one of `receiveBody`. -/
def recvOutcome : SocketOutcome → RecvOutcome
  | .pendingError => .pendingError
  | .failed => .failed
  | .closed => .closed
  | .arrived _ more => .chunk more.length

section Chunks

variable (outcome : SocketOutcome)

theorem delivered_of_nil (none : outcome.bytes = []) (maxChunkSize : UInt32) :
    outcome.delivered maxChunkSize = [] := by
  rw [delivered, none, List.take_nil]

theorem not_chunkSize_pos (none : outcome.bytes = []) (maxChunkSize : UInt32) :
    ¬0 < outcome.chunkSize maxChunkSize := by
  cases outcome with
  | pendingError | failed => exact (by decide : ¬(0 : Int32) < -1)
  | closed => exact (by decide : ¬(0 : Int32) < 0)
  | arrived first more => exact nomatch none

theorem chunkSize_of_ne_nil (some : outcome.bytes ≠ []) (maxChunkSize : UInt32) :
    outcome.chunkSize maxChunkSize = .ofNat (outcome.delivered maxChunkSize).length := by
  cases outcome with
  | pendingError | failed | closed => exact absurd rfl some
  | arrived first more => rfl

theorem chunkSize_bounds (maxChunkSize : UInt32)
    (range : (outcome.delivered maxChunkSize).length < 2 ^ 31) :
    -1 ≤ (outcome.chunkSize maxChunkSize).toInt ∧
      (outcome.chunkSize maxChunkSize).toInt ≤ (outcome.delivered maxChunkSize).length := by
  cases outcome with
  | pendingError | failed =>
    have hminus : (-1 : Int32).toInt = -1 := by decide
    exact ⟨hminus.ge, hminus.le.trans (by omega)⟩
  | closed =>
    have hzero : (0 : Int32).toInt = 0 := by decide
    exact ⟨hzero.ge.trans' (by omega), hzero.le.trans (by omega)⟩
  | arrived first more =>
    have hcount := Int32.toInt_ofNat_of_lt range
    exact ⟨hcount.ge.trans' (by omega), hcount.le⟩

end Chunks

end SocketOutcome

open EthTermConnection

/-- The locals of `Receive` with their types, the connection and the buffer. -/
structure ReceiveLocals where
  conn : EthTermConnection
  dataBuf : PiVisionData
  numReceiveAttempts : UInt32
  numBytesReceived : Int32

namespace ReceiveLocals

/-- `maxChunkSize`. -/
def maxChunkSize (numBytesToGet : UInt32) (s : ReceiveLocals) : UInt32 :=
  min (.ofNat EthTermConnection.maxChunkSize) (numBytesToGet - s.numBytesReceived.toUInt32)

/-- The condition of the loop. -/
def more (numBytesToGet : UInt32) (s : ReceiveLocals) : Bool :=
  decide (s.numBytesReceived.toUInt32 < numBytesToGet)

/-- A round of the loop. -/
def round (numBytesToGet : UInt32) (s : ReceiveLocals) (outcome : SocketOutcome) :
    Flow ReceiveLocals :=
  let numReceiveAttempts := s.numReceiveAttempts + 1
  let conn := if outcome = .pendingError then s.conn.deactivate else s.conn
  let chunkSize := outcome.chunkSize (s.maxChunkSize numBytesToGet)
  if 0 < chunkSize then
    .next {
      conn := conn
      dataBuf := s.dataBuf.append (outcome.delivered (s.maxChunkSize numBytesToGet))
      numReceiveAttempts := 0
      numBytesReceived := s.numBytesReceived + chunkSize }
  -- empty-handed, with `active` cleared by this attempt or before the call
  else if !conn.active then
    .leave { s with conn := conn, numReceiveAttempts := numReceiveAttempts }
  else if UInt32.ofNat maxReceiveAttempts < numReceiveAttempts then
    .leave { s with conn := conn.deactivate, numReceiveAttempts := numReceiveAttempts }
  else
    .next { s with conn := conn, numReceiveAttempts := numReceiveAttempts }

/-- `Receive` into a buffer. -/
def receive (numBytesToGet : UInt32) (outcomes : List SocketOutcome) (conn : EthTermConnection)
    (dataBuf : PiVisionData) : Ending ReceiveLocals SocketOutcome :=
  loop (more numBytesToGet) (round numBytesToGet) outcomes ⟨conn, dataBuf, 0, 0⟩

/-- The rounds of such a call. -/
def receiveRounds (numBytesToGet : UInt32) (outcomes : List SocketOutcome)
    (conn : EthTermConnection) (dataBuf : PiVisionData) : List (ReceiveLocals × SocketOutcome) :=
  rounds (more numBytesToGet) (round numBytesToGet) outcomes ⟨conn, dataBuf, 0, 0⟩

end ReceiveLocals

/-! ## Machine integers in range -/

/-- The locals as machine integers. -/
def EthTermConnection.ReceiveState.locals (t : ReceiveState) : ReceiveLocals where
  conn := t.conn
  dataBuf := t.dataBuf
  numReceiveAttempts := .ofNat t.numReceiveAttempts
  numBytesReceived := .ofNat t.numBytesReceived

theorem EthTermConnection.ReceiveState.conn_locals (t : ReceiveState) : t.locals.conn = t.conn :=
  rfl

theorem EthTermConnection.ReceiveState.succ_attempts_locals (t : ReceiveState) :
    t.locals.numReceiveAttempts + 1 = .ofNat (t.numReceiveAttempts + 1) :=
  (UInt32.ofNat_add _ _).symm

/-- No count of the loop leaves its type in a round. -/
structure CountsInRange (numBytesToGet : UInt32) (t : ReceiveState) : Prop where
  requested : numBytesToGet.toNat < 2 ^ 31
  received : t.numBytesReceived ≤ numBytesToGet.toNat
  attempts : t.numReceiveAttempts ≤ maxReceiveAttempts

namespace CountsInRange

variable {numBytesToGet : UInt32} {t : ReceiveState}

theorem toNat_received (counts : CountsInRange numBytesToGet t) :
    t.locals.numBytesReceived.toUInt32.toNat = t.numBytesReceived := by
  have hrequested := counts.requested
  have hreceived := counts.received
  apply UInt32.toNat_ofNat_of_lt'
  simp only [UInt32.size]
  omega

theorem toNat_min (m n : UInt32) : (min m n).toNat = min m.toNat n.toNat := by
  have hmin : min m n = if m ≤ n then m else n := rfl
  rw [hmin]
  split
  · rename_i hle
    rw [Nat.min_eq_left (UInt32.le_iff_toNat_le.mp hle)]
  · rename_i hnot
    rw [UInt32.le_iff_toNat_le] at hnot
    rw [Nat.min_eq_right (by omega)]

/-- The comparison of the count with the number of bytes to get. -/
theorem more_locals (counts : CountsInRange numBytesToGet t) :
    t.locals.more numBytesToGet = receiveGuard numBytesToGet.toNat t := by
  simp only [ReceiveLocals.more, receiveGuard, UInt32.lt_iff_toNat_lt, counts.toNat_received]

/-- The difference of the two. -/
theorem toNat_maxChunkSize (counts : CountsInRange numBytesToGet t) :
    (t.locals.maxChunkSize numBytesToGet).toNat =
      min maxChunkSize (numBytesToGet.toNat - t.numBytesReceived) := by
  have hle : t.locals.numBytesReceived.toUInt32 ≤ numBytesToGet := by
    rw [UInt32.le_iff_toNat_le, counts.toNat_received]
    exact counts.received
  have hsub : (numBytesToGet - t.locals.numBytesReceived.toUInt32).toNat =
      numBytesToGet.toNat - t.numBytesReceived := by
    rw [UInt32.toNat_sub_of_le _ _ hle, counts.toNat_received]
  have hchunk : (UInt32.ofNat EthTermConnection.maxChunkSize).toNat =
      EthTermConnection.maxChunkSize := rfl
  rw [ReceiveLocals.maxChunkSize, toNat_min, hsub, hchunk]

/-- What `recv` delivers is the chunk of `receiveBody`, if it is what has arrived. -/
theorem delivered_eq (counts : CountsInRange numBytesToGet t) (outcome : SocketOutcome) :
    outcome.delivered (t.locals.maxChunkSize numBytesToGet) =
      recvChunk numBytesToGet.toNat { t with wire := outcome.bytes } outcome.recvOutcome := by
  rw [SocketOutcome.delivered, counts.toNat_maxChunkSize]
  cases outcome with
  | pendingError | failed | closed => exact List.take_nil
  | arrived first more =>
    -- no more bytes are taken than there are
    have hlength : (SocketOutcome.arrived first more).bytes.length = more.length + 1 := rfl
    simp only [recvChunk, SocketOutcome.recvOutcome]
    rw [Nat.min_comm (more.length + 1), ← hlength, ← List.take_eq_take_min]

theorem length_delivered_le (counts : CountsInRange numBytesToGet t) (outcome : SocketOutcome) :
    (outcome.delivered (t.locals.maxChunkSize numBytesToGet)).length ≤
      numBytesToGet.toNat - t.numBytesReceived := by
  rw [counts.delivered_eq]
  exact recvChunk_length_le _ _ _

/-- The sign of `chunkSize` tells whether there are bytes. -/
theorem chunkSize_pos_iff (counts : CountsInRange numBytesToGet t) (outcome : SocketOutcome) :
    0 < outcome.chunkSize (t.locals.maxChunkSize numBytesToGet) ↔
      0 < (outcome.delivered (t.locals.maxChunkSize numBytesToGet)).length := by
  by_cases hbytes : outcome.bytes = []
  · have hnone := outcome.delivered_of_nil hbytes (t.locals.maxChunkSize numBytesToGet)
    rw [hnone]
    exact iff_of_false (outcome.not_chunkSize_pos hbytes _) (Nat.lt_irrefl 0)
  · have hrequested := counts.requested
    have hlength := counts.length_delivered_le outcome
    rw [outcome.chunkSize_of_ne_nil hbytes]
    exact Int32.ofNat_lt_iff_lt (by decide) (by omega)

/-- The sum with `chunkSize` does not overflow. -/
theorem toInt_received_add (counts : CountsInRange numBytesToGet t) (outcome : SocketOutcome) :
    (t.locals.numBytesReceived +
        outcome.chunkSize (t.locals.maxChunkSize numBytesToGet)).toInt =
      t.locals.numBytesReceived.toInt +
        (outcome.chunkSize (t.locals.maxChunkSize numBytesToGet)).toInt := by
  have hrequested := counts.requested
  have hreceived := counts.received
  have hlength := counts.length_delivered_le outcome
  have hcount : t.locals.numBytesReceived.toInt = t.numBytesReceived :=
    Int32.toInt_ofNat_of_lt (by omega)
  obtain ⟨hlow, hhigh⟩ :=
    outcome.chunkSize_bounds (t.locals.maxChunkSize numBytesToGet) (by omega)
  rw [Int32.toInt_add, hcount]
  apply Int.bmod_eq_of_le
  · omega
  · omega

/-- The limit of the attempts. -/
theorem limit_iff (counts : CountsInRange numBytesToGet t) :
    UInt32.ofNat maxReceiveAttempts < t.locals.numReceiveAttempts + 1 ↔
      maxReceiveAttempts < t.numReceiveAttempts + 1 := by
  have hattempts := counts.attempts
  have hrange : t.numReceiveAttempts + 1 < UInt32.size := by
    simp only [maxReceiveAttempts] at hattempts
    simp only [UInt32.size]
    omega
  rw [t.succ_attempts_locals]
  exact UInt32.ofNat_lt_iff_lt (by decide) hrange

/-- **A round on machine integers is a round of `receiveBody`.** -/
theorem round_locals (counts : CountsInRange numBytesToGet t) (outcome : SocketOutcome) :
    t.locals.round numBytesToGet outcome =
      (receiveBody numBytesToGet.toNat { t with wire := outcome.bytes }
        (.attempt outcome.recvOutcome)).map ReceiveState.locals := by
  have hpending : outcome.recvOutcome = .pendingError ↔ outcome = .pendingError := by
    cases outcome <;> simp [SocketOutcome.recvOutcome]
  simp only [ReceiveLocals.round, receiveBody, hpending, ← counts.delivered_eq,
    counts.chunkSize_pos_iff, counts.limit_iff]
  by_cases hchunk : 0 < (outcome.delivered (t.locals.maxChunkSize numBytesToGet)).length
  · have hbytes : outcome.bytes ≠ [] := by
      intro hnil
      rw [outcome.delivered_of_nil hnil] at hchunk
      exact absurd hchunk (Nat.lt_irrefl 0)
    rw [if_pos hchunk, if_pos hchunk, outcome.chunkSize_of_ne_nil hbytes]
    simp only [Flow.map, ReceiveState.locals, Int32.ofNat_add]
    rfl
  · rw [if_neg hchunk, if_neg hchunk]
    -- the two ways out of the loop, and the one back into it
    simp only [ReceiveState.conn_locals, ReceiveState.succ_attempts_locals]
    split
    · split
      · rfl
      · split <;> rfl
    · split
      · rfl
      · split <;> rfl

end CountsInRange

/-! ## The contract -/

namespace ReceiveLocals

/-- What `recv` delivers in a round. -/
def delivered (numBytesToGet : UInt32) (r : ReceiveLocals × SocketOutcome) : List UInt8 :=
  r.2.delivered (r.1.maxChunkSize numBytesToGet)

/-- What a round does: the buffer accepts what `recv` delivers, and the count is the sum. -/
structure Sound (numBytesToGet : UInt32) (r : ReceiveLocals × SocketOutcome) : Prop where
  accepted : r.1.dataBuf.Accepts (delivered numBytesToGet r)
  counted : (r.1.numBytesReceived + r.2.chunkSize (r.1.maxChunkSize numBytesToGet)).toInt =
    r.1.numBytesReceived.toInt + (r.2.chunkSize (r.1.maxChunkSize numBytesToGet)).toInt

/-- What holds behind the rounds made so far: the buffer has what `recv` has delivered in them,
in order, and no more than is asked for. -/
structure Collects (numBytesToGet : UInt32) (past : List (ReceiveLocals × SocketOutcome))
    (s : ReceiveLocals) : Prop where
  bytes : s.dataBuf.bytes = past.flatMap (delivered numBytesToGet)
  bounded : s.dataBuf.size ≤ numBytesToGet.toNat
  sound : ∀ r ∈ past, Sound numBytesToGet r

/-- The contract of `Receive`: a buffer that has been left short means a connection that has been
given up. -/
structure Contract (numBytesToGet : UInt32) (past : List (ReceiveLocals × SocketOutcome))
    (s : ReceiveLocals) : Prop extends Collects numBytesToGet past s where
  short : s.dataBuf.size < numBytesToGet.toNat → s.conn.active = false

/-- The call returns, and has kept the contract. -/
def KeepsContract (numBytesToGet : UInt32) (outcomes : ℕ → SocketOutcome)
    (conn : EthTermConnection) (dataBuf : PiVisionData) : Prop :=
  ∃ n s, (∀ tail, receive numBytesToGet (firstAnswers outcomes n ++ tail) conn dataBuf =
      .returned s tail) ∧
    Contract numBytesToGet (receiveRounds numBytesToGet (firstAnswers outcomes n) conn dataBuf) s

/-- The invariant of the loop. -/
structure Waits (numBytesToGet : UInt32) (past : List (ReceiveLocals × SocketOutcome))
    (t : ReceiveState) : Prop extends Collects numBytesToGet past t.locals where
  counts : CountsInRange numBytesToGet t
  capacity : t.dataBuf.capacity = numBytesToGet.toNat
  size : t.dataBuf.size = t.numBytesReceived

/-- The bytes that are missing, and the attempts left for the next of them. -/
def rank (numBytesToGet : UInt32) (s : ReceiveLocals) : ℕ ×ₗ ℕ :=
  toLex (numBytesToGet.toNat - s.numBytesReceived.toUInt32.toNat,
    maxReceiveAttempts + 1 - s.numReceiveAttempts.toNat)

section Rounds

variable {numBytesToGet : UInt32} {past : List (ReceiveLocals × SocketOutcome)} {t : ReceiveState}
  {outcome : SocketOutcome}

/-- What is delivered fits into the buffer. -/
theorem Waits.fits (waits : Waits numBytesToGet past t) (outcome : SocketOutcome) :
    t.dataBuf.size + (delivered numBytesToGet (t.locals, outcome)).length ≤
      t.dataBuf.capacity := by
  have hlength : (delivered numBytesToGet (t.locals, outcome)).length ≤
      numBytesToGet.toNat - t.numBytesReceived := waits.counts.length_delivered_le outcome
  have hreceived := waits.counts.received
  rw [waits.size, waits.capacity]
  omega

theorem Waits.range (waits : Waits numBytesToGet past t) : t.dataBuf.capacity < uint32Range := by
  rw [waits.capacity]
  exact numBytesToGet.toNat_lt

theorem Waits.sound_next (waits : Waits numBytesToGet past t) (outcome : SocketOutcome) :
    Sound numBytesToGet (t.locals, outcome) where
  accepted := PiVisionData.accepts_of_fits (waits.fits outcome) waits.range
  counted := waits.counts.toInt_received_add outcome

/-- One more round, behind which the buffer has what is delivered in it. -/
theorem Collects.concat {s u : ReceiveLocals} (collects : Collects numBytesToGet past s)
    {r : ReceiveLocals × SocketOutcome} (sound : Sound numBytesToGet r)
    (bytes : u.dataBuf.bytes = s.dataBuf.bytes ++ delivered numBytesToGet r)
    (bounded : u.dataBuf.size ≤ numBytesToGet.toNat) :
    Collects numBytesToGet (past ++ [r]) u where
  bytes := by
    rw [bytes, collects.bytes, List.flatMap_append, List.flatMap_singleton]
  bounded := bounded
  sound := by
    intro q hq
    rcases List.mem_append.mp hq with hpast | hlast
    · exact collects.sound q hpast
    · rw [List.mem_singleton.mp hlast]
      exact sound

/-- A round in which nothing is delivered. -/
theorem Waits.collects_empty (waits : Waits numBytesToGet past t)
    (empty : delivered numBytesToGet (t.locals, outcome) = []) {u : ReceiveLocals}
    (same : u.dataBuf = t.dataBuf) :
    Collects numBytesToGet (past ++ [(t.locals, outcome)]) u := by
  refine waits.toCollects.concat (waits.sound_next outcome) ?_ ?_
  · rw [empty, same, List.append_nil]
    rfl
  · rw [same]
    exact waits.bounded

/-- The rank in numbers. -/
theorem rank_locals (counts : CountsInRange numBytesToGet t) :
    rank numBytesToGet t.locals = toLex (numBytesToGet.toNat - t.numBytesReceived,
      maxReceiveAttempts + 1 - t.numReceiveAttempts) := by
  have hattempts := counts.attempts
  have hcount : t.locals.numReceiveAttempts.toNat = t.numReceiveAttempts := by
    apply UInt32.toNat_ofNat_of_lt'
    simp only [maxReceiveAttempts] at hattempts
    simp only [UInt32.size]
    omega
  rw [rank, counts.toNat_received, hcount]

/-- Behind a chunk. -/
theorem Waits.chunk (waits : Waits numBytesToGet past t) (outcome : SocketOutcome)
    (wire : List UInt8) : Waits numBytesToGet (past ++ [(t.locals, outcome)]) { t with
      wire := wire
      dataBuf := t.dataBuf.append (delivered numBytesToGet (t.locals, outcome))
      numReceiveAttempts := 0
      numBytesReceived :=
        t.numBytesReceived + (delivered numBytesToGet (t.locals, outcome)).length } := by
  have hfits := waits.fits outcome
  have hsize := PiVisionData.size_append hfits waits.range
  refine ⟨waits.toCollects.concat (waits.sound_next outcome) ?_ ?_,
    ⟨waits.counts.requested, ?_, Nat.zero_le _⟩, ?_, ?_⟩
  · exact PiVisionData.bytes_append hfits waits.range
  · exact hsize.trans_le (hfits.trans_eq waits.capacity)
  · rw [← waits.size, ← waits.capacity]
    exact hfits
  · rw [PiVisionData.capacity_append, waits.capacity]
  · rw [hsize, waits.size]

/-- Behind an attempt that comes back empty. -/
theorem Waits.retry (waits : Waits numBytesToGet past t) (wire : List UInt8)
    (empty : delivered numBytesToGet (t.locals, outcome) = [])
    (attempts : t.numReceiveAttempts + 1 ≤ maxReceiveAttempts) :
    Waits numBytesToGet (past ++ [(t.locals, outcome)]) { t with
      wire := wire
      numReceiveAttempts := t.numReceiveAttempts + 1 } where
  toCollects := waits.collects_empty empty rfl
  counts := ⟨waits.counts.requested, waits.counts.received, attempts⟩
  capacity := waits.capacity
  size := waits.size

/-- What a round does. -/
theorem Waits.round (waits : Waits numBytesToGet past t) (outcome : SocketOutcome) :
    (t.locals.round numBytesToGet outcome).Meets
      (fun s => (∃ u : ReceiveState, s = u.locals ∧
        Waits numBytesToGet (past ++ [(t.locals, outcome)]) u) ∧
          rank numBytesToGet s < rank numBytesToGet t.locals)
      (Contract numBytesToGet (past ++ [(t.locals, outcome)])) := by
  have hdelivered : delivered numBytesToGet (t.locals, outcome) =
      recvChunk numBytesToGet.toNat { t with wire := outcome.bytes } outcome.recvOutcome :=
    waits.counts.delivered_eq outcome
  rw [waits.counts.round_locals]
  rcases receiveBody_attempt_cases numBytesToGet.toNat { t with wire := outcome.bytes }
    outcome.recvOutcome with ⟨hpos, h⟩ | ⟨hempty, conn, -, hactive, h⟩ | ⟨hempty, hattempts, h⟩
  · rw [h]
    rw [← hdelivered] at hpos ⊢
    -- fewer bytes are missing
    have hnext := waits.chunk outcome
      (outcome.bytes.drop (delivered numBytesToGet (t.locals, outcome)).length)
    have hreceived := hnext.counts.received
    refine ⟨⟨_, rfl, hnext⟩, ?_⟩
    rw [rank_locals hnext.counts, rank_locals waits.counts, Prod.Lex.toLex_lt_toLex]
    refine .inl ?_
    simp only at hreceived ⊢
    omega
  · rw [h]
    exact ⟨waits.collects_empty (hdelivered.trans hempty) rfl, fun _ => hactive⟩
  · rw [h]
    -- the same bytes are missing, and fewer attempts are left
    have hnext := waits.retry outcome.bytes (hdelivered.trans hempty) hattempts
    refine ⟨⟨_, rfl, hnext⟩, ?_⟩
    rw [rank_locals hnext.counts, rank_locals waits.counts, Prod.Lex.toLex_lt_toLex]
    refine .inr ⟨rfl, ?_⟩
    simp only at hattempts ⊢
    omega

/-- The loop ends at its condition with a full buffer. -/
theorem Waits.contract_of_done (waits : Waits numBytesToGet past t)
    (done : t.locals.more numBytesToGet = false) : Contract numBytesToGet past t.locals where
  toCollects := waits.toCollects
  short := by
    intro hshort
    have hmissing : t.dataBuf.size < numBytesToGet.toNat := hshort
    rw [waits.counts.more_locals] at done
    rw [waits.size] at hmissing
    exact absurd hmissing (of_decide_eq_false done)

theorem variant_receive (numBytesToGet : UInt32) :
    Variant (more numBytesToGet) (ReceiveLocals.round numBytesToGet) (rank numBytesToGet)
      (fun past s => ∃ t : ReceiveState, s = t.locals ∧ Waits numBytesToGet past t)
      (Contract numBytesToGet) where
  round := by
    rintro past _ outcome - ⟨t, rfl, waits⟩
    exact waits.round outcome
  done := by
    rintro past _ hdone ⟨t, rfl, waits⟩
    exact waits.contract_of_done hdone

/-- An empty buffer of the capacity that is asked for. -/
theorem waits_start {dataBuf : PiVisionData} (countable : numBytesToGet.toNat < 2 ^ 31)
    (empty : dataBuf.size = 0) (capacity : dataBuf.capacity = numBytesToGet.toNat)
    (conn : EthTermConnection) : Waits numBytesToGet [] ⟨conn, [], dataBuf, 0, 0⟩ where
  bytes := List.eq_nil_of_length_eq_zero (dataBuf.length_bytes.trans empty)
  bounded := by
    have hsize : (ReceiveState.locals ⟨conn, [], dataBuf, 0, 0⟩).dataBuf.size = 0 := empty
    omega
  sound := List.forall_mem_nil _
  counts := ⟨countable, Nat.zero_le _, Nat.zero_le _⟩
  capacity := capacity
  size := empty

end Rounds

/-- **A receive ends with its contract kept**, whatever the socket does, if not more bytes are
asked for than an `int32_t` can count. -/
theorem keepsContract {numBytesToGet : UInt32} (countable : numBytesToGet.toNat < 2 ^ 31)
    {dataBuf : PiVisionData} (empty : dataBuf.size = 0)
    (capacity : dataBuf.capacity = numBytesToGet.toNat) (conn : EthTermConnection)
    (outcomes : ℕ → SocketOutcome) : KeepsContract numBytesToGet outcomes conn dataBuf :=
  (variant_receive numBytesToGet).returns outcomes
    ⟨_, rfl, waits_start countable empty capacity conn⟩

/-- Two bytes asked for, of which the peer sends one before it closes the stream. -/
theorem keepsContract_closed : KeepsContract 2
    (fun n => if n = 0 then .arrived 7 [] else .closed) (.new .server 0 0) (.new 2) :=
  keepsContract (by decide) rfl rfl _ _

end ReceiveLocals

end PiVision
