import PiVision.Lib.LittleEndian

/-!
# Length-prefixed framing

A payload goes onto a byte stream behind a little-endian length of fixed width.
`wholeFrames` reads the complete frames at the front of a byte string, and inverts
the encoding of any list of payloads whose lengths fit the header: the code is
uniquely decodable, so a stream position inside it is never ambiguous.
-/

namespace Framing

open LittleEndian

variable (width : ℕ)

/-- A payload behind its length. -/
def encodeFrame (payload : List UInt8) : List UInt8 :=
  leBytes width payload.length ++ payload

/-- The stream that carries the payloads one after the other. -/
def encodeFrames (payloads : List (List UInt8)) : List UInt8 :=
  payloads.flatMap (encodeFrame width)

@[simp] theorem length_encodeFrame (payload : List UInt8) :
    (encodeFrame width payload).length = width + payload.length := by
  simp [encodeFrame]

@[simp] theorem encodeFrames_nil : encodeFrames width [] = [] := rfl

@[simp] theorem encodeFrames_cons (payload : List UInt8) (payloads : List (List UInt8)) :
    encodeFrames width (payload :: payloads) =
      encodeFrame width payload ++ encodeFrames width payloads := rfl

theorem length_encodeFrames_cons (payload : List UInt8) (payloads : List (List UInt8)) :
    (encodeFrames width (payload :: payloads)).length =
      width + payload.length + (encodeFrames width payloads).length := by
  rw [encodeFrames_cons, List.length_append, length_encodeFrame]

@[simp] theorem encodeFrames_append (ps qs : List (List UInt8)) :
    encodeFrames width (ps ++ qs) = encodeFrames width ps ++ encodeFrames width qs := by
  simp [encodeFrames]

/-- The complete frames at the front of a byte string, at most `fuel` of them. -/
def wholeFramesWithin : ℕ → List UInt8 → List (List UInt8)
  | 0, _ => []
  | fuel + 1, bytes =>
    if width + leValue (bytes.take width) ≤ bytes.length then
      (bytes.drop width).take (leValue (bytes.take width)) ::
        wholeFramesWithin fuel (bytes.drop (width + leValue (bytes.take width)))
    else []

/-- The complete frames at the front of a byte string. -/
def wholeFrames (bytes : List UInt8) : List (List UInt8) :=
  wholeFramesWithin width bytes.length bytes

/-- The header at the front of a stream of frames names the first payload's length. -/
theorem leValue_take_encodeFrame {payload : List UInt8} (fits : payload.length < 256 ^ width)
    (rest : List UInt8) :
    leValue ((encodeFrame width payload ++ rest).take width) = payload.length := by
  rw [encodeFrame, List.append_assoc, List.take_left' (length_leBytes _ _),
    leValue_leBytes width _ fits]

theorem wholeFramesWithin_encodeFrames (payloads : List (List UInt8))
    (fits : ∀ p ∈ payloads, p.length < 256 ^ width) (positive : 0 < width) (fuel : ℕ)
    (enough : payloads.length ≤ fuel) :
    wholeFramesWithin width fuel (encodeFrames width payloads) = payloads := by
  -- each payload takes one unit of the fuel, which is never less than what is left
  induction payloads generalizing fuel with
  | nil => cases fuel <;> simp [wholeFramesWithin]; omega
  | cons p ps ih =>
    obtain ⟨fuel, rfl⟩ : ∃ k, fuel = k + 1 := ⟨fuel - 1, by simp at enough; omega⟩
    have hlen := leValue_take_encodeFrame width (fits p (by simp)) (encodeFrames width ps)
    have hhead : (encodeFrame width p ++ encodeFrames width ps).drop width =
        p ++ encodeFrames width ps := by
      rw [encodeFrame, List.append_assoc, List.drop_left' (length_leBytes _ _)]
    have htail : (encodeFrame width p ++ encodeFrames width ps).drop (width + p.length) =
        encodeFrames width ps := List.drop_left' (length_encodeFrame width p)
    rw [encodeFrames_cons, wholeFramesWithin, hlen, hhead, htail]
    have hfits : width + p.length ≤ (encodeFrame width p ++ encodeFrames width ps).length := by
      simp
    rw [if_pos hfits, List.take_left' rfl,
      ih (fun q hq => fits q (by simp [hq])) fuel (by simpa using enough)]

/-- **Unique decoding.** Reading the whole frames of a stream of frames gives the
payloads back. -/
theorem wholeFrames_encodeFrames {payloads : List (List UInt8)}
    (fits : ∀ p ∈ payloads, p.length < 256 ^ width) (positive : 0 < width) :
    wholeFrames width (encodeFrames width payloads) = payloads := by
  -- the fuel is the length of the stream, and every frame has at least its header's bytes
  refine wholeFramesWithin_encodeFrames width payloads fits positive _ ?_
  clear fits
  induction payloads with
  | nil => simp
  | cons p ps ih =>
    rw [length_encodeFrames_cons, List.length_cons]
    omega

/-- A header and as many bytes as it names, at the front of a stream of frames, are the
first frame. -/
theorem encodeFrames_eq_cons {header payload rest : List UInt8} {payloads : List (List UInt8)}
    (hheader : header.length = width) (hpayload : payload.length = leValue header)
    (fits : ∀ p ∈ payloads, p.length < 256 ^ width) (positive : 0 < width)
    (h : header ++ payload ++ rest = encodeFrames width payloads) :
    ∃ others, payloads = payload :: others ∧ rest = encodeFrames width others := by
  cases payloads with
  | nil =>
    have hlen := congrArg List.length h
    simp only [List.length_append, encodeFrames_nil, List.length_nil] at hlen
    omega
  | cons p others =>
    have hfront : header = leBytes width p.length := by
      have htake := congrArg (List.take width) h
      rwa [List.append_assoc, List.take_left' hheader, encodeFrames_cons, encodeFrame,
        List.append_assoc, List.take_left' (length_leBytes _ _)] at htake
    have hbody : payload ++ rest = p ++ encodeFrames width others := by
      have hdrop := congrArg (List.drop width) h
      rwa [List.append_assoc, List.drop_left' hheader, encodeFrames_cons, encodeFrame,
        List.append_assoc, List.drop_left' (length_leBytes _ _)] at hdrop
    have hlen : payload.length = p.length := by
      rw [hpayload, hfront, leValue_leBytes width _ (fits p (by simp))]
    -- equal lengths, so the two splits of the body fall at the same place
    obtain ⟨rfl, hrest⟩ := List.append_inj hbody hlen
    exact ⟨others, rfl, hrest⟩

/-- A header at the front of a stream of frames is that of the first frame, and its payload
comes next. -/
theorem encodeFrames_eq_header {header rest : List UInt8} {payloads : List (List UInt8)}
    (hheader : header.length = width) (fits : ∀ p ∈ payloads, p.length < 256 ^ width)
    (positive : 0 < width) (h : header ++ rest = encodeFrames width payloads) :
    ∃ payload others, payloads = payload :: others ∧ leValue header = payload.length ∧
      rest = payload ++ encodeFrames width others := by
  cases payloads with
  | nil =>
    have hlen := congrArg List.length h
    simp only [List.length_append, encodeFrames_nil, List.length_nil] at hlen
    omega
  | cons payload others =>
    rw [encodeFrames_cons, encodeFrame, List.append_assoc] at h
    obtain ⟨rfl, hrest⟩ := List.append_inj h (by rw [hheader, length_leBytes])
    exact ⟨payload, others, rfl, leValue_leBytes width _ (fits payload (by simp)), hrest⟩

/-- No frame of a stream begins between the first byte of a frame and the end of it. -/
theorem length_encodeFrames_suffix {done todo done' todo' : List (List UInt8)}
    {payload : List UInt8} (h : done ++ payload :: todo = done' ++ todo') :
    (encodeFrames width todo').length ≤ (encodeFrames width todo).length ∨
      (encodeFrames width (payload :: todo)).length ≤ (encodeFrames width todo').length := by
  rcases List.append_eq_append_iff.mp h with ⟨between, rfl, hback⟩ | ⟨between, rfl, hback⟩
  · cases between with
    | nil => exact .inr (by rw [hback, List.nil_append])
    | cons first between =>
      have htodo : todo = between ++ todo' := (List.cons.inj hback).2
      refine .inl ?_
      rw [htodo, encodeFrames_append, List.length_append]
      exact Nat.le_add_left _ _
  · refine .inr ?_
    rw [hback, encodeFrames_append, List.length_append]
    exact Nat.le_add_left _ _

/-! ## Reading a stream in parts -/

section Reads

variable {α : Type*}

/-- What a read takes, it takes from the front of the stream. -/
theorem take_append_drop_length_take (n : ℕ) (stream : List α) :
    stream.take n ++ stream.drop (stream.take n).length = stream := by
  rcases Nat.le_total n stream.length with hinside | hbeyond
  · rw [List.length_take_of_le hinside, List.take_append_drop]
  · rw [List.take_of_length_le hbeyond, List.drop_length, List.append_nil]

/-- A read that takes no more than is missing of `n` elements, and leaves nothing missing, has
got `n` elements. -/
theorem length_append_of_missing {n : ℕ} {got chunk : List α} (inside : got.length ≤ n)
    (fits : chunk.length ≤ n - got.length) (complete : ¬(got ++ chunk).length < n) :
    (got ++ chunk).length = n := by
  rw [List.length_append] at complete ⊢
  omega

end Reads

end Framing
