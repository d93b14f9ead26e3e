import PiVision.EthTerm.Connection
import Mathlib.Data.List.Infix

/-!
# Telling data from control

`Execute` compares the elements at the first four indices of a payload with those of
each control message. As no byte of a control word is zero, and elements past the end
of a buffer read as zero, the comparison says that the bytes that arrived begin with
the word; so what a payload is taken for depends on its bytes only.
-/

namespace PiVision

open LittleEndian

namespace EthTermConnection

/-- The four bytes each control message begins with. -/
def controlWords : List (List UInt8) :=
  [leBytes 4 ackMsg, leBytes 4 heartbeatMsg, leBytes 4 pidMsg]

/-- The payload begins with one of the control words. -/
def StartsWithControlWord (payload : List UInt8) : Prop := ∃ word ∈ controlWords, word <+: payload

instance : DecidablePred StartsWithControlWord :=
  fun payload => inferInstanceAs (Decidable (∃ word ∈ controlWords, word <+: payload))

/-- A data payload is not empty and does not begin with a control word. -/
def IsData (payload : List UInt8) : Prop := payload ≠ [] ∧ ¬ StartsWithControlWord payload

instance : DecidablePred IsData :=
  fun payload => inferInstanceAs (Decidable (payload ≠ [] ∧ ¬ StartsWithControlWord payload))

/-- An element past the end reads as zero, so it differs from a byte that is not. -/
theorem getElementAt_eq_iff {d : PiVisionData} {index : ℕ} {b : UInt8} (nonzero : b ≠ 0) :
    d.getElementAt index = b ↔ d.bytes[index]? = some b := by
  rw [PiVisionData.getElementAt_eq]
  cases d.bytes[index]? with
  | none => simpa using fun h => nonzero h.symm
  | some x => simp

/-- Beginning with four given bytes, element by element. -/
theorem four_prefix_iff (a b c e : UInt8) (bs : List UInt8) :
    [a, b, c, e] <+: bs ↔
      bs[0]? = some a ∧ bs[1]? = some b ∧ bs[2]? = some c ∧ bs[3]? = some e := by
  rw [List.prefix_iff_getElem?]
  constructor
  · intro h
    exact ⟨h 0 (by simp), h 1 (by simp), h 2 (by simp), h 3 (by simp)⟩
  · rintro ⟨h₀, h₁, h₂, h₃⟩ i hi
    match i with
    | 0 => exact h₀
    | 1 => exact h₁
    | 2 => exact h₂
    | 3 => exact h₃

/-- The comparison with a control message is a comparison with its first four bytes. -/
theorem startsWithWord_iff {word : PiVisionData} {a b c e : UInt8} {tail : List UInt8}
    (hword : word.bytes = a :: b :: c :: e :: tail)
    (nonzero : a ≠ 0 ∧ b ≠ 0 ∧ c ≠ 0 ∧ e ≠ 0) (payloadLength : ℕ) (d : PiVisionData) :
    startsWithWord word payloadLength d = true ↔
      4 ≤ payloadLength ∧ [a, b, c, e] <+: d.bytes := by
  obtain ⟨ha, hb, hc, he⟩ := nonzero
  have hat : ∀ index, word.getElementAt index = ((a :: b :: c :: e :: tail)[index]?).getD 0 :=
    fun index => by rw [PiVisionData.getElementAt_eq, hword]
  rw [four_prefix_iff, ← getElementAt_eq_iff ha, ← getElementAt_eq_iff hb,
    ← getElementAt_eq_iff hc, ← getElementAt_eq_iff he]
  simp [startsWithWord, hat, and_assoc]

section Words

variable (payloadLength : ℕ) (d : PiVisionData)

theorem startsWithWord_ack :
    startsWithWord ackMsgBuf payloadLength d = true ↔
      4 ≤ payloadLength ∧ leBytes 4 ackMsg <+: d.bytes :=
  startsWithWord_iff bytes_ackMsgBuf (by decide) payloadLength d

theorem startsWithWord_heartbeat :
    startsWithWord heartbeatMsgBuf payloadLength d = true ↔
      4 ≤ payloadLength ∧ leBytes 4 heartbeatMsg <+: d.bytes :=
  startsWithWord_iff bytes_heartbeatMsgBuf (by decide) payloadLength d

theorem startsWithWord_pid (ownPid : ℕ) :
    startsWithWord (pidMsgBuf ownPid) payloadLength d = true ↔
      4 ≤ payloadLength ∧ leBytes 4 pidMsg <+: d.bytes :=
  startsWithWord_iff (bytes_pidMsgBuf ownPid) (by decide) payloadLength d

/-- **Data is what no control word claims.** -/
theorem classify_eq_data_iff :
    classify payloadLength d = .data ↔
      0 < payloadLength ∧ ¬ (4 ≤ payloadLength ∧ StartsWithControlWord d.bytes) := by
  have hword : (4 ≤ payloadLength ∧ StartsWithControlWord d.bytes) ↔
      startsWithWord ackMsgBuf payloadLength d = true ∨
        startsWithWord heartbeatMsgBuf payloadLength d = true ∨
          startsWithWord (pidMsgBuf 0) payloadLength d = true := by
    rw [startsWithWord_ack, startsWithWord_heartbeat, startsWithWord_pid]
    simp [StartsWithControlWord, controlWords, and_or_left]
  rw [hword]
  unfold classify
  by_cases hpos : 0 < payloadLength
  -- the order of the tests decides between control messages only
  · cases hack : startsWithWord ackMsgBuf payloadLength d <;>
      cases hheartbeat : startsWithWord heartbeatMsgBuf payloadLength d <;>
        cases hpid : startsWithWord (pidMsgBuf 0) payloadLength d <;>
          simp [hpos]
  · simp [hpos]

/-- A payload that has arrived whole is classified by its bytes. -/
theorem classify_eq_data_iff_isData (whole : d.size = payloadLength) :
    classify payloadLength d = .data ↔ IsData d.bytes := by
  rw [classify_eq_data_iff]
  have hlength : d.bytes.length = payloadLength := by rw [PiVisionData.length_bytes, whole]
  have hpos : 0 < payloadLength ↔ d.bytes ≠ [] := by
    rw [← hlength, List.length_pos_iff]
  have hfour : StartsWithControlWord d.bytes → 4 ≤ payloadLength := by
    rintro ⟨word, hword, hfront⟩
    -- a payload that begins with a word is as long as the word at least
    have hlen : word.length = 4 := by
      simp only [controlWords, List.mem_cons, List.not_mem_nil, or_false] at hword
      rcases hword with rfl | rfl | rfl <;> exact length_leBytes _ _
    rw [← hlength, ← hlen]
    exact hfront.length_le
  rw [IsData, hpos]
  constructor
  · rintro ⟨hne, hnot⟩
    exact ⟨hne, fun hstarts => hnot ⟨hfour hstarts, hstarts⟩⟩
  · rintro ⟨hne, hnot⟩
    exact ⟨hne, fun h => hnot h.2⟩

end Words

end EthTermConnection

end PiVision
