import PiVision.Lib.LittleEndian

/-!
# The data buffer

`PiVisionData` is the buffer every payload travels in: a block of `capacity` bytes
of which the first `size` have been stored. All of its arithmetic is 32-bit, and
`append` compares the wrapped sum with the capacity, as the source does.
-/

namespace PiVision

open LittleEndian

/-- The range of `uint32_t`. -/
def uint32Range : ℕ := 2 ^ 32

/-- A byte buffer. `buf` holds what has been stored, from the start of the block;
only its first `size` bytes can be read back. -/
structure PiVisionData where
  buf : List UInt8
  capacity : ℕ
  size : ℕ
  size_le : size ≤ buf.length
  deriving DecidableEq

namespace PiVisionData

/-- The constructor: an empty buffer of the given capacity. -/
def new (capacity : ℕ) : PiVisionData := ⟨[], capacity, 0, le_rfl⟩

/-- `Append`: copy `data` behind the bytes stored so far if the new size, as a
`uint32_t`, does not exceed the capacity. -/
def append (d : PiVisionData) (data : List UInt8) : PiVisionData :=
  if (d.size + data.length) % uint32Range ≤ d.capacity then
    { d with
      buf := d.buf.take d.size ++ data ++ d.buf.drop (d.size + data.length)
      size := (d.size + data.length) % uint32Range
      size_le := by
        have hlen := d.size_le
        have hmod := Nat.mod_le (d.size + data.length) uint32Range
        simp only [List.length_append, List.length_take, List.length_drop]
        omega }
  else d

/-- `GetElementAt`: bytes past the size read as zero. -/
def getElementAt (d : PiVisionData) (index : ℕ) : UInt8 :=
  if index < d.size then (d.buf[index]?).getD 0 else 0

/-- The bytes that can be read back. -/
def bytes (d : PiVisionData) : List UInt8 := d.buf.take d.size

@[simp] theorem length_bytes (d : PiVisionData) : d.bytes.length = d.size := by
  simp [bytes, d.size_le]

@[simp] theorem bytes_new (capacity : ℕ) : (new capacity).bytes = [] := rfl

@[simp] theorem size_new (capacity : ℕ) : (new capacity).size = 0 := rfl

@[simp] theorem capacity_new (capacity : ℕ) : (new capacity).capacity = capacity := rfl

/-- Reading an element is reading the stored bytes, with zero past their end. -/
theorem getElementAt_eq (d : PiVisionData) (index : ℕ) :
    d.getElementAt index = (d.bytes[index]?).getD 0 := by
  unfold getElementAt bytes
  split
  · rw [List.getElem?_take_of_lt ‹_›]
  · rw [List.getElem?_take_eq_none (by omega), Option.getD_none]

@[simp] theorem capacity_append (d : PiVisionData) (data : List UInt8) :
    (d.append data).capacity = d.capacity := by
  unfold append
  split <;> rfl

section Fits

variable {d : PiVisionData} {data : List UInt8}

/-- An append that fits the remaining space takes the first branch. -/
theorem append_of_fits (fits : d.size + data.length ≤ d.capacity)
    (range : d.capacity < uint32Range) :
    (d.append data).bytes = d.bytes ++ data ∧ (d.append data).size = d.size + data.length := by
  have hmod : (d.size + data.length) % uint32Range = d.size + data.length :=
    Nat.mod_eq_of_lt (by omega)
  have hsize := d.size_le
  unfold append
  rw [if_pos (by omega)]
  refine ⟨?_, hmod⟩
  have hlen : (d.buf.take d.size ++ data).length = d.size + data.length := by
    simp [Nat.min_eq_left hsize]
  simp only [bytes, hmod]
  rw [← hlen, List.take_left' rfl]

theorem bytes_append (fits : d.size + data.length ≤ d.capacity)
    (range : d.capacity < uint32Range) : (d.append data).bytes = d.bytes ++ data :=
  (append_of_fits fits range).1

theorem size_append (fits : d.size + data.length ≤ d.capacity)
    (range : d.capacity < uint32Range) : (d.append data).size = d.size + data.length :=
  (append_of_fits fits range).2

/-- An append that does not fit the remaining space, nor wraps around, is refused. -/
theorem append_of_full (full : d.capacity < d.size + data.length)
    (range : d.size + data.length < uint32Range) : d.append data = d := by
  -- in range the wrapped sum is the sum, which the capacity does not reach
  have hno : ¬ (d.size + data.length) % uint32Range ≤ d.capacity := by
    rw [Nat.mod_eq_of_lt range]
    omega
  rw [append, if_neg hno]

end Fits

/-- The elements at consecutive indices are a slice of the stored bytes. -/
theorem map_getElementAt (d : PiVisionData) {start n : ℕ} (inside : start + n ≤ d.size) :
    (List.range n).map (fun i => d.getElementAt (start + i)) = (d.bytes.drop start).take n := by
  apply List.ext_getElem?
  intro i
  -- inside the slice an element is a stored byte, so the default of `getElementAt` plays no part
  by_cases hi : i < n
  · have hlen : start + i < d.bytes.length := by rw [length_bytes]; omega
    simp [hi, getElementAt_eq, List.getElem?_drop, List.getElem?_eq_getElem hlen]
  · simp [hi]

/-! ## Words in a buffer -/

/-- The loop that stores the bytes `byteAt 0, …, byteAt (n - 1)` one at a time. -/
def appendBytes (d : PiVisionData) (byteAt : ℕ → UInt8) (n : ℕ) : PiVisionData :=
  (List.range n).foldl (fun d i => d.append [byteAt i]) d

theorem appendBytes_of_fits {d : PiVisionData} (byteAt : ℕ → UInt8) {n : ℕ}
    (fits : d.size + n ≤ d.capacity) (range : d.capacity < uint32Range) :
    (d.appendBytes byteAt n).bytes = d.bytes ++ (List.range n).map byteAt ∧
      (d.appendBytes byteAt n).size = d.size + n ∧
      (d.appendBytes byteAt n).capacity = d.capacity := by
  induction n with
  | zero => simp [appendBytes]
  | succ n ih =>
    obtain ⟨hbytes, hsize, hcap⟩ := ih (by omega)
    have hstep : d.appendBytes byteAt (n + 1) =
        (d.appendBytes byteAt n).append [byteAt n] := by
      simp [appendBytes, List.range_succ]
    have hfits : (d.appendBytes byteAt n).size + [byteAt n].length ≤
        (d.appendBytes byteAt n).capacity := by
      rw [hsize, hcap, List.length_singleton]; omega
    have hrange : (d.appendBytes byteAt n).capacity < uint32Range := by rw [hcap]; exact range
    rw [hstep]
    refine ⟨?_, ?_, ?_⟩
    · rw [bytes_append hfits hrange, hbytes, List.range_succ, List.map_append,
        List.append_assoc, List.map_singleton]
    · rw [size_append hfits hrange, hsize, List.length_singleton, Nat.add_assoc]
    · rw [capacity_append, hcap]

/-- The loop that stores a 32-bit word byte by byte, least significant first. -/
def appendWord (d : PiVisionData) (word : ℕ) : PiVisionData :=
  d.appendBytes (fun i => UInt8.ofNat (0xFF &&& word >>> (i * 8))) 4

theorem appendWord_of_fits {d : PiVisionData} (fits : d.size + 4 ≤ d.capacity)
    (range : d.capacity < uint32Range) (word : ℕ) :
    (d.appendWord word).bytes = d.bytes ++ leBytes 4 word ∧
      (d.appendWord word).size = d.size + 4 ∧ (d.appendWord word).capacity = d.capacity := by
  obtain ⟨hbytes, hsize, hcap⟩ := appendBytes_of_fits
    (fun i => UInt8.ofNat (0xFF &&& word >>> (i * 8))) fits range
  refine ⟨hbytes.trans ?_, hsize, hcap⟩
  simp only [ofNat_and_shiftRight, map_range_ofNat_div]

/-- The word read back from a buffer by shifting and or-ing its bytes. -/
def getWord (d : PiVisionData) (start n : ℕ) : ℕ :=
  orBytes (fun i => d.getElementAt (i + start)) n

/-- The word is that of the stored bytes: those past their end read as zero. -/
theorem getWord_eq (d : PiVisionData) (start n : ℕ) :
    d.getWord start n = leValue ((d.bytes.drop start).take n) := by
  rw [getWord, orBytes_eq_leValue, ← leValue_map_getD]
  simp only [getElementAt_eq, List.getElem?_drop, Nat.add_comm]

/-- A buffer whose bytes are exactly the given ones. -/
def ofBytes (payload : List UInt8) : PiVisionData :=
  ⟨payload, payload.length, payload.length, le_rfl⟩

@[simp] theorem bytes_ofBytes (payload : List UInt8) : (ofBytes payload).bytes = payload := by
  simp [ofBytes, bytes]

@[simp] theorem size_ofBytes (payload : List UInt8) :
    (ofBytes payload).size = payload.length := rfl

end PiVisionData

end PiVision
