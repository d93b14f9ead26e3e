import Mathlib.Algebra.Group.Nat.Defs
import Mathlib.Data.Int.Notation
import PiVision.Lib.ScriptLoop

/-!
# The transfers of the server

`SERVER_send` calls `send` until as many bytes have been taken as the buffer has,
and `SERVER_receive` calls `recv` once. Neither learns that the client has gone:
`connected` is set when a client is accepted and is never cleared.

A send that cannot return is one that still waits when the script of its answers ends.
-/

namespace PiVision

open ScriptLoop

namespace Server

/-- The locals of `SERVER_send`, and what its calls of `send` have put on the stream. -/
structure SendState where
  sentBytes : ℤ
  stream : List UInt8
  deriving DecidableEq, Repr

/-- `(int)size`. -/
def intSize (size : ℕ) : ℤ := Int.bmod size (2 ^ 32)

theorem intSize_of_lt {size : ℕ} (fits : size < 2 ^ 31) : intSize size = size :=
  Int.bmod_eq_of_le_mul_two (by omega) (by omega)

/-- `sentBytes < (int)size`. -/
def bytesLeft (buf : List UInt8) (s : SendState) : Bool := s.sentBytes < intSize buf.length

/-- A round of the loop, for what `send` returns: `none` for `-1`, or so many bytes, as far
as the buffer has them. -/
def sendRound (buf : List UInt8) (s : SendState) : Option ℕ → Flow SendState
  -- the loop goes on behind an error
  | none => .next s
  -- every round offers the buffer from its start
  | some count => .next ⟨s.sentBytes + (buf.take count).length, s.stream ++ buf.take count⟩

/-- What a call of `SERVER_send` has come to. -/
inductive SendStatus
  /-- It has returned `-1`. -/
  | failed
  /-- It has returned `0`, with this on the stream. -/
  | sent (stream : List UInt8)
  /-- It has not returned. -/
  | sending (stream : List UInt8)
  deriving DecidableEq, Repr

/-- `SERVER_send`, for the answers of `send`. -/
def send (connected : Bool) (buf : List UInt8) (answers : List (Option ℕ)) : SendStatus :=
  if connected then
    match loop (bytesLeft buf) (sendRound buf) answers ⟨0, []⟩ with
    | .returned s _ => .sent s.stream
    | .waiting s => .sending s.stream
  else .failed

/-- `SERVER_receive`, for what `recv` returns: `none` for `-1`, or the bytes that it has put
into the buffer. -/
def receive (connected : Bool) (recv : Option (List UInt8)) : Option (List UInt8) :=
  if connected then recv else none

/-- With a client the call does not return `-1`. -/
theorem send_connected_ne_failed (buf : List UInt8) (answers : List (Option ℕ)) :
    send true buf answers ≠ .failed := by
  rw [send, if_pos rfl]
  split <;> simp

/-- A buffer whose size is an `int` goes out as it is when `send` takes all of it at once,
whatever number of calls fail before. -/
theorem send_of_whole {buf : List UInt8} (nonempty : buf ≠ []) (fits : buf.length < 2 ^ 31)
    (failures : ℕ) : send true buf (.replicate failures none ++ [some buf.length]) = .sent buf := by
  have hsize : intSize buf.length = buf.length := intSize_of_lt fits
  have hleft : bytesLeft buf ⟨0, []⟩ = true := by
    have hlength := List.length_pos_iff.mpr nonempty
    rw [bytesLeft, hsize, decide_eq_true_iff]
    show (0 : ℤ) < buf.length
    omega
  have hround : sendRound buf ⟨0, []⟩ (some buf.length) = .next ⟨buf.length, buf⟩ := by
    simp [sendRound]
  have hdone : bytesLeft buf ⟨buf.length, buf⟩ = false := by simp [bytesLeft, hsize]
  have hloop : loop (bytesLeft buf) (sendRound buf) (.replicate failures none ++ [some buf.length])
      ⟨0, []⟩ = .returned ⟨buf.length, buf⟩ [] := by
    induction failures with
    | zero =>
      rw [List.replicate_zero, List.nil_append, loop_cons_next hleft hround]
      exact loop_of_not_guard hdone []
    | succ failures ih => rwa [List.replicate_succ, List.cons_append, loop_cons_next hleft rfl]
  rw [send, if_pos rfl, hloop]

/-! ## Partial sends -/

/-- Each part that `send` accepts is what stands at the place to which the stream has got. -/
def Continues (buf : List UInt8) : ℕ → List (Option ℕ) → Prop
  | _, [] => True
  | sent, none :: answers => Continues buf sent answers
  | sent, some count :: answers =>
    sent < buf.length →
      buf.take count <+: buf.drop sent ∧
        Continues buf (sent + (buf.take count).length) answers

section PartialSends

variable {buf : List UInt8} {answers : List (Option ℕ)}

/-- Behind the end of the buffer nothing is sent. -/
theorem continues_of_le {sent : ℕ} (done : buf.length ≤ sent) : Continues buf sent answers := by
  induction answers with
  | nil => trivial
  | cons answer answers ih =>
    cases answer with
    | none => exact ih
    | some count => exact fun hless => absurd hless (Nat.not_lt.mpr done)

theorem append_isPrefix_iff {α : Type*} {xs ys zs : List α} :
    xs ++ ys <+: zs ↔ xs <+: zs ∧ ys <+: zs.drop xs.length := by
  constructor
  · rintro ⟨rest, rfl⟩
    rw [List.append_assoc, List.drop_left]
    exact ⟨List.prefix_append _ _, List.prefix_append _ _⟩
  · rintro ⟨⟨rest, rfl⟩, hys⟩
    rw [List.drop_left] at hys
    exact (List.prefix_append_right_inj xs).mpr hys

theorem bytesLeft_iff (fits : buf.length < 2 ^ 31) {s : SendState}
    (counted : s.sentBytes = s.stream.length) :
    bytesLeft buf s = true ↔ s.stream.length < buf.length := by
  rw [bytesLeft, intSize_of_lt fits, counted, decide_eq_true_iff]
  exact Int.ofNat_lt

/-- A stream that has got to the end of the buffer is the buffer if it is the start of it. -/
theorem stream_eq_iff_of_done {s : SendState} (done : ¬s.stream.length < buf.length) :
    s.stream = buf ↔ s.stream <+: buf ∧ Continues buf s.stream.length answers := by
  have hle := Nat.not_lt.mp done
  constructor
  · intro heq
    exact ⟨heq ▸ List.prefix_refl _, continues_of_le hle⟩
  · rintro ⟨hbegins, -⟩
    exact hbegins.eq_of_length_le hle

/-- What a loop that returns has put on the stream is the buffer if what was there before is
the start of it, and the parts accepted go on as the buffer does. -/
theorem stream_eq_iff (fits : buf.length < 2 ^ 31) {s s' : SendState} {rest : List (Option ℕ)}
    (counted : s.sentBytes = s.stream.length)
    (returned : loop (bytesLeft buf) (sendRound buf) answers s = .returned s' rest) :
    s'.stream = buf ↔ s.stream <+: buf ∧ Continues buf s.stream.length answers := by
  induction answers generalizing s with
  | nil =>
    by_cases hleft : bytesLeft buf s = true
    · simp [loop, hleft] at returned
    · rw [loop_of_not_guard (by simpa using hleft)] at returned
      cases returned
      exact stream_eq_iff_of_done (mt (bytesLeft_iff fits counted).mpr hleft)
  | cons answer answers ih =>
    by_cases hleft : bytesLeft buf s = true
    · have hless := (bytesLeft_iff fits counted).mp hleft
      cases answer with
      | none =>
        rw [loop_cons_next hleft rfl] at returned
        exact ih counted returned
      | some count =>
        rw [loop_cons_next hleft rfl] at returned
        have hstream := ih (by rw [counted, List.length_append]; rfl) returned
        rw [hstream, append_isPrefix_iff, List.length_append, and_assoc]
        exact and_congr_right fun _ => ⟨fun h _ => h, fun h => h hless⟩
    · rw [loop_of_not_guard (by simpa using hleft)] at returned
      cases returned
      exact stream_eq_iff_of_done (mt (bytesLeft_iff fits counted).mpr hleft)

/-- **A buffer goes out as it is** if and only if the parts that `send` accepts, each from the
start of the buffer, go on as the buffer does. -/
theorem send_eq_buffer_iff (fits : buf.length < 2 ^ 31) {stream : List UInt8}
    (sent : send true buf answers = .sent stream) : stream = buf ↔ Continues buf 0 answers := by
  rw [send, if_pos rfl] at sent
  cases hloop : loop (bytesLeft buf) (sendRound buf) answers ⟨0, []⟩ with
  | waiting s =>
    rw [hloop] at sent
    cases sent
  | returned s rest =>
    rw [hloop] at sent
    cases sent
    rw [stream_eq_iff fits rfl hloop]
    exact and_iff_right List.nil_prefix

/-- What a loop that has not returned has put on the stream is the start of the buffer, if the
parts accepted go on as the buffer does. -/
theorem stream_isPrefix_of_waiting (fits : buf.length < 2 ^ 31) {s s' : SendState}
    (counted : s.sentBytes = s.stream.length)
    (waits : loop (bytesLeft buf) (sendRound buf) answers s = .waiting s')
    (begins : s.stream <+: buf) (continues : Continues buf s.stream.length answers) :
    s'.stream <+: buf := by
  induction answers generalizing s with
  | nil =>
    by_cases hleft : bytesLeft buf s = true
    · simp only [loop, hleft, if_true, Ending.waiting.injEq] at waits
      rwa [← waits]
    · rw [loop_of_not_guard (by simpa using hleft)] at waits
      cases waits
  | cons answer answers ih =>
    by_cases hleft : bytesLeft buf s = true
    · have hless := (bytesLeft_iff fits counted).mp hleft
      cases answer with
      | none =>
        rw [loop_cons_next hleft rfl] at waits
        exact ih counted waits begins continues
      | some count =>
        obtain ⟨hpart, hrest⟩ := continues hless
        rw [loop_cons_next hleft rfl] at waits
        refine ih (by rw [counted, List.length_append]; rfl) waits ?_ ?_
        · exact append_isPrefix_iff.mpr ⟨begins, hpart⟩
        · rw [List.length_append]
          exact hrest
    · rw [loop_of_not_guard (by simpa using hleft)] at waits
      cases waits

/-- A call that has not returned. -/
theorem sending_isPrefix (fits : buf.length < 2 ^ 31) {stream : List UInt8}
    (sending : send true buf answers = .sending stream) (continues : Continues buf 0 answers) :
    stream <+: buf := by
  rw [send, if_pos rfl] at sending
  cases hloop : loop (bytesLeft buf) (sendRound buf) answers ⟨0, []⟩ with
  | returned s rest =>
    rw [hloop] at sending
    cases sending
  | waiting s =>
    rw [hloop] at sending
    cases sending
    exact stream_isPrefix_of_waiting fits rfl hloop List.nil_prefix continues

/-- A buffer of two equal bytes may go out one by one. -/
theorem send_eq_buffer_two : send true [1, 1] [some 1, none, some 1] = .sent [1, 1] ∧
    (([1, 1] : List UInt8) = [1, 1] ↔ Continues [1, 1] 0 [some 1, none, some 1]) :=
  ⟨rfl, send_eq_buffer_iff (by decide) rfl⟩

/-- Of a buffer that `send` takes in two parts the first one goes out twice. -/
theorem send_repeats_start : send true [1, 2] [some 1, some 1] = .sent [1, 1] := rfl

end PartialSends

end Server

end PiVision
