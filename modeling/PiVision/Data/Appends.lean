import PiVision.Data
import PiVision.Lib.Run

/-!
# A buffer over its appends

`Append` is meant to take what fits into the space that is left and to refuse what does not.
It adds the size and `dataSize` as `uint32_t` numbers. A `dataSize` with which the sum wraps
around is then taken for one that fits, whatever the capacity is, and the buffer loses what
it held.
-/

namespace PiVision

open Machine

namespace PiVisionData

/-- The arguments of `Append`: `dataSize` is a `uint32_t`. -/
structure Chunk where
  data : List UInt8
  fits : data.length < uint32Range

/-- The test of `Append`, on `uint32_t` numbers. -/
def Accepts (d : PiVisionData) (data : List UInt8) : Prop :=
  (d.size + data.length) % uint32Range ≤ d.capacity

instance (d : PiVisionData) (data : List UInt8) : Decidable (d.Accepts data) :=
  inferInstanceAs (Decidable (_ ≤ _))

/-- What fits the remaining space is accepted. -/
theorem accepts_of_fits {d : PiVisionData} {data : List UInt8}
    (fits : d.size + data.length ≤ d.capacity) (range : d.capacity < uint32Range) :
    d.Accepts data := by
  rw [Accepts, Nat.mod_eq_of_lt (by omega)]
  exact fits

/-- What `GetElementAt` reads at the indices below the size. -/
def elements (d : PiVisionData) : List UInt8 := (List.range d.size).map d.getElementAt

theorem elements_eq_bytes (d : PiVisionData) : d.elements = d.bytes := by
  have hinside : 0 + d.size ≤ d.size := Nat.le_of_eq (Nat.zero_add _)
  have hread := d.map_getElementAt hinside
  simp only [Nat.zero_add, List.drop_zero] at hread
  rw [elements, hread]
  exact List.take_of_length_le (Nat.le_of_eq d.length_bytes)

end PiVisionData

open PiVisionData

/-- A buffer, and the chunks that it has accepted. -/
structure AppendRun where
  buffer : PiVisionData
  accepted : List (List UInt8)

namespace AppendRun

/-- The constructor called. -/
def start (capacity : UInt32) : AppendRun := ⟨.new capacity.toNat, []⟩

/-- A call of `Append`. -/
def step (s : AppendRun) (chunk : Chunk) : AppendRun where
  buffer := s.buffer.append chunk.data
  accepted := if s.buffer.Accepts chunk.data then s.accepted ++ [chunk.data] else s.accepted

/-- What a call is meant to do. -/
structure Lawful (s : AppendRun) (chunk : Chunk) : Prop where
  bounded : (s.step chunk).buffer.size ≤ (s.step chunk).buffer.capacity
  elements : (s.step chunk).buffer.elements = (s.step chunk).accepted.flatten
  fits : s.buffer.Accepts chunk.data ↔ chunk.data.length + s.buffer.size ≤ s.buffer.capacity
  refused : s.buffer.capacity < chunk.data.length + s.buffer.size →
    (s.step chunk).buffer = s.buffer

/-- The sum of the size and `dataSize` is a `uint32_t`. -/
def InRange (s : AppendRun) (chunk : Chunk) : Prop :=
  s.buffer.size + chunk.data.length < uint32Range

/-- What holds between two calls. -/
structure Inv (s : AppendRun) : Prop where
  bounded : s.buffer.size ≤ s.buffer.capacity
  range : s.buffer.capacity < uint32Range
  bytes : s.buffer.bytes = s.accepted.flatten

theorem inv_start (capacity : UInt32) : (start capacity).Inv where
  bounded := Nat.zero_le _
  range := capacity.toNat_lt
  bytes := rfl

section Calls

variable {s : AppendRun} {chunk : Chunk}

/-- A sum that wraps around passes the test. -/
theorem Inv.accepts_of_wrap (inv : s.Inv) (wraps : ¬s.InRange chunk) :
    s.buffer.Accepts chunk.data := by
  have hbounded := inv.bounded
  have hrange := inv.range
  have hfits := chunk.fits
  simp only [InRange, uint32Range] at wraps hrange hfits
  simp only [Accepts, uint32Range]
  omega

/-- A call in range accepts what fits. -/
theorem accepts_iff (inRange : s.InRange chunk) :
    s.buffer.Accepts chunk.data ↔ chunk.data.length + s.buffer.size ≤ s.buffer.capacity := by
  rw [Accepts, Nat.mod_eq_of_lt inRange, Nat.add_comm]

/-- A call in range appends the chunk, or leaves the buffer alone. -/
theorem Inv.step_cases (inv : s.Inv) (inRange : s.InRange chunk) :
    (chunk.data.length + s.buffer.size ≤ s.buffer.capacity ∧
      (s.step chunk).buffer.bytes = s.buffer.bytes ++ chunk.data ∧
      (s.step chunk).buffer.size = s.buffer.size + chunk.data.length ∧
      (s.step chunk).accepted = s.accepted ++ [chunk.data]) ∨
    (s.buffer.capacity < chunk.data.length + s.buffer.size ∧ s.step chunk = s) := by
  by_cases hfits : chunk.data.length + s.buffer.size ≤ s.buffer.capacity
  · have hroom : s.buffer.size + chunk.data.length ≤ s.buffer.capacity := by omega
    refine .inl ⟨hfits, bytes_append hroom inv.range, size_append hroom inv.range, ?_⟩
    exact if_pos ((accepts_iff inRange).mpr hfits)
  · have hfull : s.buffer.capacity < s.buffer.size + chunk.data.length := by omega
    refine .inr ⟨by omega, ?_⟩
    rw [step, append_of_full hfull inRange, if_neg (mt (accepts_iff inRange).mp hfits)]

theorem Inv.step (inv : s.Inv) (inRange : s.InRange chunk) : (s.step chunk).Inv := by
  have hcapacity : (s.step chunk).buffer.capacity = s.buffer.capacity := capacity_append _ _
  rcases inv.step_cases inRange with ⟨hfits, hbytes, hsize, haccepted⟩ | ⟨-, hsame⟩
  · refine ⟨?_, ?_, ?_⟩
    · rw [hsize, hcapacity]
      omega
    · rw [hcapacity]
      exact inv.range
    · rw [hbytes, haccepted, inv.bytes, List.flatten_concat]
  · rw [hsame]
    exact inv

/-- A call does what it is meant to do exactly if the sum is in range. -/
theorem Inv.lawful_iff (inv : s.Inv) : s.Lawful chunk ↔ s.InRange chunk := by
  constructor
  · intro lawful
    by_contra hwraps
    have hfits := lawful.fits.mp (inv.accepts_of_wrap hwraps)
    have hrange := inv.range
    unfold InRange at hwraps
    omega
  · intro inRange
    have hnext := inv.step inRange
    refine ⟨hnext.bounded, ?_, accepts_iff inRange, fun hfull => ?_⟩
    · rw [elements_eq_bytes, hnext.bytes]
    · rcases inv.step_cases inRange with ⟨hfits, -⟩ | ⟨-, hsame⟩
      · omega
      · rw [hsame]

end Calls

/-- **The buffer is append-only** in the runs in which no call adds up to 2^32 or more. -/
theorem lawful_iff_inRange (capacity : UInt32) (chunks : List Chunk) :
    Along step Lawful (start capacity) chunks ↔ Along step InRange (start capacity) chunks :=
  along_congr (fun _ _ inv => inv.lawful_iff) (fun _ _ inv => inv.step) (inv_start capacity) chunks

/-- A buffer of four bytes that holds three. -/
theorem not_lawful_of_length {chunk : Chunk} (length : chunk.data.length = 2 ^ 32 - 2) :
    ¬Along step Lawful (start 4) [⟨[1, 2, 3], by decide⟩, chunk] := by
  rintro ⟨-, hlawful, -⟩
  have haccepts := hlawful.fits.mp
  rw [Accepts, length] at haccepts
  exact absurd (haccepts (by decide)) (by decide)

/-- It accepts a chunk of 2^32 - 2 bytes. -/
theorem accepts_behind_wrap :
    ¬Along step Lawful (start 4) [⟨[1, 2, 3], by decide⟩,
      ⟨.replicate (2 ^ 32 - 2) 0, by rw [List.length_replicate]; decide⟩] :=
  not_lawful_of_length List.length_replicate

end AppendRun

end PiVision
