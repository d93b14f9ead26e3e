import PiVision.EthTerm.ControlWords
import PiVision.EthTerm.Execute
import PiVision.Grayscale.Job

/-!
# When a gray image is mistaken for control

A gray image is sent as a payload of its own, so its first four pixels stand where a
control message has its word. The words of the ack and of the heartbeat are averages
that a colour image can have; the word of the pid message is not, as its second byte is
so much smaller than its first that the carried-over value alone exceeds it.

A payload that is empty is neither raised nor acknowledged. `HandleEvent` clears
`receivedAck` for it all the same, as it does for a payload that begins with a word.
-/

namespace PiVision

open LittleEndian EthTermConnection

namespace GrayscaleImageJob

/-- The payload is treated as data: in every state of the peer's `Execute`, having
received it whole, it is raised and acknowledged and no control flag changes. -/
def TreatedAsData (payload : List UInt8) : Prop :=
  ∀ (ownPid : ℕ) (s : ExecuteState) (read : FrameRead), s.conn.ackEnabled = true →
    read.Whole → read.dataBuf.bytes = payload →
      (handlePayload ownPid read s).raised = s.raised ++ [read] ∧
      (handlePayload ownPid read s).acked = s.acked ++ [read] ∧
      (handlePayload ownPid read s).conn.receivedAck = s.conn.receivedAck ∧
      (handlePayload ownPid read s).conn.isInSameProcess = s.conn.isInSameProcess

/-- Sums of the first four pixels' channels that average to the ack word. -/
def AckSums (s₀ s₁ s₂ s₃ : ℕ) : Prop :=
  (717 ≤ s₀ ∧ s₀ ≤ 719) ∧ (331 ≤ s₁ ∧ s₁ ≤ 333) ∧ (329 ≤ s₂ ∧ s₂ ≤ 331) ∧ (493 ≤ s₃ ∧ s₃ ≤ 495)

/-- Sums of the first four pixels' channels that average to the heartbeat word. -/
def HeartbeatSums (s₀ s₁ s₂ s₃ : ℕ) : Prop :=
  (483 ≤ s₀ ∧ s₀ ≤ 485) ∧ (409 ≤ s₁ ∧ s₁ ≤ 411) ∧ (293 ≤ s₂ ∧ s₂ ≤ 295) ∧ (409 ≤ s₃ ∧ s₃ ≤ 411)

/-- The image has four pixels, and they average to a control word. -/
def LooksLikeControl : List ℕ → Prop
  | s₀ :: s₁ :: s₂ :: s₃ :: _ => AckSums s₀ s₁ s₂ s₃ ∨ HeartbeatSums s₀ s₁ s₂ s₃
  | _ => False

/-- A pixel is a given byte when the average is. -/
theorem ofNat_average_eq_iff {colorIntensity : ℕ} {b : UInt8} (above : 1 < b.toNat)
    (below : b.toNat < 254) :
    b = UInt8.ofNat (averageWithinLimits colorIntensity) ↔
      3 * b.toNat ≤ colorIntensity ∧ colorIntensity ≤ 3 * b.toNat + 2 := by
  have hmem := averageWithinLimits_mem colorIntensity
  rw [← averageWithinLimits_eq_iff above below, ← UInt8.toNat_inj, UInt8.toNat_ofNat',
    Nat.mod_eq_of_lt (by omega), eq_comm]

/-- Four bytes between the limits are the first gray pixels exactly when each sum, with
the byte before carried over, averages to its byte. -/
theorem word_prefix_grayFrom_iff {a b c e : UInt8}
    (above : 1 < a.toNat ∧ 1 < b.toNat ∧ 1 < c.toNat ∧ 1 < e.toNat)
    (below : a.toNat < 254 ∧ b.toNat < 254 ∧ c.toNat < 254 ∧ e.toNat < 254)
    (s₀ s₁ s₂ s₃ : ℕ) (rest : List ℕ) :
    [a, b, c, e] <+: grayFrom 0 (s₀ :: s₁ :: s₂ :: s₃ :: rest) ↔
      (3 * a.toNat ≤ s₀ ∧ s₀ ≤ 3 * a.toNat + 2) ∧
      (3 * b.toNat ≤ a.toNat + s₁ ∧ a.toNat + s₁ ≤ 3 * b.toNat + 2) ∧
      (3 * c.toNat ≤ b.toNat + s₂ ∧ b.toNat + s₂ ≤ 3 * c.toNat + 2) ∧
      (3 * e.toNat ≤ c.toNat + s₃ ∧ c.toNat + s₃ ≤ 3 * e.toNat + 2) := by
  obtain ⟨ha, hb, hc, he⟩ := above
  obtain ⟨ha', hb', hc', he'⟩ := below
  -- a pixel fits a byte, so the value carried over can be read off the word
  have hcarry : ∀ {x : UInt8} {n : ℕ}, x = UInt8.ofNat (averageWithinLimits n) →
      averageWithinLimits n = x.toNat := by
    rintro x n rfl
    have hmem := averageWithinLimits_mem n
    rw [UInt8.toNat_ofNat', Nat.mod_eq_of_lt (by omega)]
  simp only [grayFrom, List.cons_prefix_cons, List.nil_prefix, and_true, Nat.zero_add]
  constructor
  · rintro ⟨h₀, h₁, h₂, h₃⟩
    rw [hcarry h₀] at h₁ h₂ h₃
    rw [hcarry h₁] at h₂ h₃
    rw [hcarry h₂] at h₃
    exact ⟨(ofNat_average_eq_iff ha ha').mp h₀, (ofNat_average_eq_iff hb hb').mp h₁,
      (ofNat_average_eq_iff hc hc').mp h₂, (ofNat_average_eq_iff he he').mp h₃⟩
  · rintro ⟨h₀, h₁, h₂, h₃⟩
    have g₀ := (ofNat_average_eq_iff ha ha').mpr h₀
    have g₁ := (ofNat_average_eq_iff hb hb').mpr h₁
    have g₂ := (ofNat_average_eq_iff hc hc').mpr h₂
    rw [hcarry g₀, hcarry g₁, hcarry g₂]
    exact ⟨UInt8.ofNat_toNat.symm, UInt8.ofNat_toNat.symm, UInt8.ofNat_toNat.symm,
      (ofNat_average_eq_iff he he').mpr h₃⟩

/-- The gray pixels begin with a control word exactly when the sums say so. -/
theorem startsWithControlWord_grayFrom_iff (sums : List ℕ) :
    StartsWithControlWord (grayFrom 0 sums) ↔ LooksLikeControl sums := by
  have hack : leBytes 4 ackMsg = [0xEF, 0xBE, 0xAD, 0xDE] := by decide
  have hheartbeat : leBytes 4 heartbeatMsg = [0xA1, 0xBE, 0xA1, 0xBE] := by decide
  have hpid : leBytes 4 pidMsg = [0x61, 0x1D, 0xD6, 0x61] := by decide
  have hwords : StartsWithControlWord (grayFrom 0 sums) ↔
      [0xEF, 0xBE, 0xAD, 0xDE] <+: grayFrom 0 sums ∨ [0xA1, 0xBE, 0xA1, 0xBE] <+: grayFrom 0 sums ∨
        [0x61, 0x1D, 0xD6, 0x61] <+: grayFrom 0 sums := by
    simp [StartsWithControlWord, controlWords, hack, hheartbeat, hpid]
  rw [hwords]
  rcases sums with _ | ⟨s₀, _ | ⟨s₁, _ | ⟨s₂, _ | ⟨s₃, rest⟩⟩⟩⟩
  case cons.cons.cons.cons =>
    -- the sums for the pid word would have `97 + s₁ ≤ 89`, so its disjunct is empty
    rw [word_prefix_grayFrom_iff (by decide) (by decide),
      word_prefix_grayFrom_iff (by decide) (by decide),
      word_prefix_grayFrom_iff (by decide) (by decide)]
    simp only [LooksLikeControl, AckSums, HeartbeatSums]
    have h : (0xEF : UInt8).toNat = 239 ∧ (0xBE : UInt8).toNat = 190 ∧ (0xAD : UInt8).toNat = 173 ∧
      (0xDE : UInt8).toNat = 222 ∧ (0xA1 : UInt8).toNat = 161 ∧ (0x61 : UInt8).toNat = 97 ∧
      (0x1D : UInt8).toNat = 29 ∧ (0xD6 : UInt8).toNat = 214 := by decide
    simp only [h]
    omega
  all_goals simp [LooksLikeControl, grayFrom]

/-- The raised payload is data when the image has a pixel and does not look like
control. -/
theorem isData_execute_iff (colorImage : PiVisionData) :
    IsData (execute colorImage).bytes ↔
      imageSums colorImage ≠ [] ∧ ¬ LooksLikeControl (imageSums colorImage) := by
  have hempty : grayFrom 0 (imageSums colorImage) = [] ↔ imageSums colorImage = [] := by
    rw [← List.length_eq_zero_iff, length_grayFrom, List.length_eq_zero_iff]
  rw [bytes_execute, IsData, ne_eq, hempty, startsWithControlWord_grayFrom_iff]

/-- Being treated as data is being data. -/
theorem treatedAsData_iff_isData (payload : List UInt8) :
    TreatedAsData payload ↔ IsData payload := by
  constructor
  · intro htreated
    -- receive the payload on a fresh connection and see that it is raised
    have hheader : (header (.ofBytes payload)).size = payloadSizeHeaderSize := by
      rw [← PiVisionData.length_bytes, bytes_header, length_leBytes, payloadSizeHeaderSize]
    obtain ⟨hraised, -⟩ := htreated 0 (.start (.new .client 0 0) [] [] [])
      ⟨header (.ofBytes payload), payload.length, .ofBytes payload⟩ rfl
      ⟨hheader, PiVisionData.size_ofBytes payload⟩ (PiVisionData.bytes_ofBytes payload)
    by_contra hnot
    have hkind : classify payload.length (.ofBytes payload) ≠ .data := fun hdata => hnot (by
      simpa using (classify_eq_data_iff_isData _ _ (PiVisionData.size_ofBytes payload)).mp hdata)
    obtain ⟨-, -, ⟨hdata, -⟩ | ⟨-, hsame, -⟩⟩ := handlePayload_cases 0
      ⟨header (.ofBytes payload), payload.length, .ofBytes payload⟩
      (.start (.new .client 0 0) [] [] [])
    · exact hkind hdata
    · rw [hsame] at hraised
      simp [ExecuteState.start] at hraised
  -- received whole, the payload is classified by its bytes alone, in every state
  · intro hdata ownPid s read hack hwhole hbytes
    have hkind : classify read.payloadLength read.dataBuf = .data := by
      rw [classify_eq_data_iff_isData _ _ hwhole.2, hbytes]
      exact hdata
    obtain ⟨-, -, ⟨-, hraised, hacked⟩ | ⟨hnot, -⟩⟩ := handlePayload_cases ownPid read s
    · rw [hack, if_pos rfl] at hacked
      exact ⟨hraised, hacked, handlePayload_data_flags hkind⟩
    · exact absurd hkind hnot

/-- **A gray image is treated as data exactly when it has a pixel and its first four do
not average to a control word.** -/
theorem treatedAsData_execute_iff (colorImage : PiVisionData) :
    TreatedAsData (execute colorImage).bytes ↔
      imageSums colorImage ≠ [] ∧ ¬ LooksLikeControl (imageSums colorImage) := by
  rw [treatedAsData_iff_isData, isData_execute_iff]

/-- A colour image of two by two pixels that turns into the ack word. -/
theorem execute_mistaken_for_ack :
    ¬ TreatedAsData (execute (.ofBytes ([2, 0, 2, 0] ++ [239, 239, 239] ++ [111, 111, 109] ++
      [110, 110, 109] ++ [165, 165, 163]))).bytes := by
  rw [treatedAsData_iff_isData]
  decide

end GrayscaleImageJob

end PiVision
