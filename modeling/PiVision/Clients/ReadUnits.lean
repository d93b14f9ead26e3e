import PiVision.ImageData.PythonClient
import PiVision.Lib.Framing
import PiVision.Lib.PrefixCode

/-!
# What the Python client reads at a time

A pass of the loop of `receive` reads a header of four bytes, and as many bytes as it says
unless it says 0 or 1. On a stream of frames these units are the frames, up to the first
payload of one byte: the client leaves that byte, and takes it for the first one of the
next header. `InStep` says which frames behind it are read as they are meant all the same.
-/

namespace PiVision

open LittleEndian Framing PrefixCode

namespace PythonClient

/-- What one pass of the loop reads. -/
def IsUnit (bytes : List UInt8) : Prop :=
  bytes.length = headerSize + readSize (leValue (bytes.take headerSize))

/-- The image that the pass stores. -/
def unitImage (bytes : List UInt8) : Option (List UInt8) :=
  if ReadsImage (leValue (bytes.take headerSize)) then some (bytes.drop headerSize) else none

/-- The image that a frame is meant to be stored as. -/
def frameImage (payload : List UInt8) : Option (List UInt8) :=
  if ReadsImage payload.length then some payload else none

/-! ## Units -/

section Units

variable {header content bytes : List UInt8}

theorem isUnit_append (whole : header.length = headerSize)
    (complete : content.length = readSize (leValue header)) : IsUnit (header ++ content) := by
  rw [IsUnit, List.take_left' whole, List.length_append, whole, complete]

theorem unitImage_append (whole : header.length = headerSize) :
    unitImage (header ++ content) =
      if ReadsImage (leValue header) then some content else none := by
  rw [unitImage, List.take_left' whole, List.drop_left' whole]

theorem prefixFree_isUnit : PrefixFree IsUnit := by
  rintro u v hu hv ⟨rest, rfl⟩
  have hheader : (u ++ rest).take headerSize = u.take headerSize := by
    apply List.take_append_of_le_length
    rw [hu]
    exact Nat.le_add_right _ _
  rw [IsUnit, hheader, ← hu, List.length_append] at hv
  have hnone : rest = [] := List.eq_nil_of_length_eq_zero (by omega)
  rw [hnone, List.append_nil]

/-- A header of less than four bytes is no unit. -/
theorem ended_of_header (short : bytes.length < headerSize) : Ended IsUnit bytes := by
  intro u hu hbegins
  have hle := hbegins.length_le
  rw [hu] at hle
  omega

/-- Nor is an image of which something is missing. -/
theorem ended_of_image (whole : header.length = headerSize)
    (short : content.length < readSize (leValue header)) : Ended IsUnit (header ++ content) := by
  rintro u hu ⟨rest, hrest⟩
  have hlong : headerSize ≤ u.length := by
    rw [hu]
    exact Nat.le_add_right _ _
  have hheader : u.take headerSize = header := by
    have htake := congrArg (List.take headerSize) hrest
    rwa [List.take_append_of_le_length hlong, List.take_left' whole] at htake
  have hlength := congrArg List.length hrest
  rw [IsUnit, hheader] at hu
  rw [List.length_append, List.length_append, hu, whole] at hlength
  omega

theorem exists_append_of_isUnit (is_unit : IsUnit bytes) :
    ∃ header content, bytes = header ++ content ∧ header.length = headerSize ∧
      content.length = readSize (leValue header) := by
  have hlong : headerSize ≤ bytes.length := by
    rw [is_unit]
    exact Nat.le_add_right _ _
  refine ⟨bytes.take headerSize, bytes.drop headerSize, (List.take_append_drop _ _).symm,
    List.length_take_of_le hlong, ?_⟩
  rw [List.length_drop, is_unit, Nat.add_sub_cancel_left]

/-- A frame whose payload does not have one byte is a unit, with its image. -/
theorem isUnit_encodeFrame {payload : List UInt8} (fits : payload.length < 256 ^ 4)
    (not_one : payload.length ≠ 1) :
    IsUnit (encodeFrame 4 payload) ∧ unitImage (encodeFrame 4 payload) = frameImage payload := by
  have hheader : (leBytes 4 payload.length).length = headerSize := length_leBytes 4 _
  have hvalue := leValue_leBytes 4 payload.length fits
  constructor
  · refine isUnit_append hheader ?_
    rw [hvalue, readSize]
    by_cases hreads : ReadsImage payload.length
    · rw [if_pos hreads]
    · rw [if_neg hreads]
      by_contra hpositive
      exact hreads ⟨fun h => hpositive h.symm, fun h => not_one h.symm⟩
  · rw [encodeFrame, unitImage_append hheader, hvalue, frameImage]

end Units

/-! ## One byte behind -/

/-- The frames that a client which is one byte behind, at the given one, reads as they are
meant: empty ones, and those whose length and payload are made of that byte alone. -/
def Recovers : UInt8 → List (List UInt8) → Prop
  | _, [] => True
  | x, payload :: others =>
    (x ≤ 1 ∧ payload = [] ∧ Recovers 0 others) ∨
      (1 ≤ x ∧ payload = .replicate (x.toNat * 0x01010101) x ∧ Recovers x others)

/-- The frames that the client reads as they are meant. -/
def InStep : List (List UInt8) → Prop
  | [] => True
  | [x] :: others => Recovers x others
  | _ :: others => InStep others

section Behind

variable {x : UInt8} {payload tail : List UInt8} {payloads units : List (List UInt8)}

theorem leValue_four (b₀ b₁ b₂ b₃ : UInt8) :
    leValue [b₀, b₁, b₂, b₃] =
      b₀.toNat + 256 * b₁.toNat + 65536 * b₂.toNat + 16777216 * b₃.toNat := by
  simp only [leValue_cons, leValue_nil]
  omega

theorem readsImage_iff {size : ℕ} : ReadsImage size ↔ 2 ≤ size := by
  rw [ReadsImage]
  omega

/-- A word whose bytes are the same. -/
theorem leBytes_same (x : UInt8) : leBytes 4 (x.toNat * 0x01010101) = [x, x, x, x] := by
  have hx := x.toNat_lt
  have hdigit (n : ℕ) : UInt8.ofNat (256 * n + x.toNat) = x := by
    apply UInt8.toNat_inj.mp
    rw [UInt8.toNat_ofNat']
    omega
  have hfirst : x.toNat * 0x01010101 = 256 * (x.toNat * 0x010101) + x.toNat := by omega
  have hsecond : x.toNat * 0x01010101 / 256 = 256 * (x.toNat * 0x0101) + x.toNat := by omega
  have hthird : x.toNat * 0x01010101 / 256 / 256 = 256 * x.toNat + x.toNat := by omega
  have hfourth : x.toNat * 0x01010101 / 256 / 256 / 256 = 256 * 0 + x.toNat := by omega
  rw [leBytes, leBytes, leBytes, leBytes, leBytes, hfourth, hthird, hsecond, hfirst, hdigit,
    hdigit, hdigit, hdigit]

/-- One byte more in front of equal ones is one byte more behind them. -/
theorem cons_replicate_append (x : UInt8) (n : ℕ) (rest : List UInt8) :
    x :: (.replicate n x ++ rest) = .replicate n x ++ x :: rest := by
  rw [← List.cons_append, ← List.replicate_succ, List.replicate_succ', List.append_assoc,
    List.singleton_append]

theorem eq_replicate_of_append {others rest : List UInt8}
    (same : payload ++ others = x :: (payload ++ rest)) :
    payload = .replicate payload.length x ∧ others = x :: rest := by
  induction payload generalizing x with
  | nil => exact ⟨rfl, same⟩
  | cons y payload ih =>
    rw [List.cons_append] at same
    obtain ⟨rfl, hrest⟩ := List.cons.inj same
    obtain ⟨hall, hothers⟩ := ih hrest
    exact ⟨by rw [List.length_cons, List.replicate_succ, ← hall], hothers⟩

/-- One byte behind, an empty frame is read as it is meant from 0 and 1. -/
theorem isUnit_behind_empty (small : x ≤ 1) :
    IsUnit [x, 0, 0, 0] ∧ unitImage [x, 0, 0, 0] = none := by
  have hvalue : ¬ReadsImage (leValue [x, 0, 0, 0]) := by
    have hle := UInt8.le_iff_toNat_le.mp small
    rw [leValue_four, readsImage_iff]
    exact Nat.not_le.mpr (Nat.lt_succ_of_le hle)
  constructor
  · refine (isUnit_append rfl ?_ : IsUnit ([x, 0, 0, 0] ++ []))
    rw [readSize, if_neg hvalue]
    rfl
  · rw [unitImage]
    exact if_neg hvalue

/-- One byte behind, the frame of that byte is read as it is meant. -/
theorem isUnit_behind_same (large : 1 ≤ x) :
    IsUnit (encodeFrame 4 (.replicate (x.toNat * 0x01010101) x)) ∧
      unitImage (encodeFrame 4 (.replicate (x.toNat * 0x01010101) x)) =
        frameImage (.replicate (x.toNat * 0x01010101) x) := by
  have hx := x.toNat_lt
  have hlarge : 1 ≤ x.toNat := UInt8.le_iff_toNat_le.mp large
  apply isUnit_encodeFrame
  · rw [List.length_replicate]
    omega
  · rw [List.length_replicate]
    omega

theorem images_eq_of_recovers (recovers : Recovers x payloads) (all : ∀ u ∈ units, IsUnit u)
    (ended : Ended IsUnit tail) (stream : units.flatten ++ tail = x :: encodeFrames 4 payloads) :
    units.map unitImage = payloads.map frameImage := by
  induction payloads generalizing x units with
  | nil =>
    have hended : Ended IsUnit (units.flatten ++ tail) := by
      rw [stream]
      exact ended_of_header (show [x].length < headerSize by simp [headerSize])
    rw [words_nil all hended]
    rfl
  | cons payload others ih =>
    rcases recovers with ⟨hsmall, rfl, hrest⟩ | ⟨hlarge, rfl, hrest⟩
    · obtain ⟨hunit, himage⟩ := isUnit_behind_empty hsmall
      have hstream : units.flatten ++ tail =
          [x, 0, 0, 0] ++ 0 :: encodeFrames 4 others := stream
      obtain ⟨units, rfl, hnext⟩ := prefixFree_isUnit.words_cons all ended hunit hstream
      have himages := ih hrest (fun u hu => all u (List.mem_cons_of_mem _ hu)) hnext
      rw [List.map_cons, List.map_cons, himage, himages]
      rfl
    · obtain ⟨hunit, himage⟩ := isUnit_behind_same hlarge
      have hstream : units.flatten ++ tail =
          encodeFrame 4 (.replicate (x.toNat * 0x01010101) x) ++
            x :: encodeFrames 4 others := by
        rw [stream, encodeFrames_cons, encodeFrame, List.length_replicate, leBytes_same,
          List.append_assoc, List.append_assoc, ← cons_replicate_append]
        rfl
      obtain ⟨units, rfl, hnext⟩ := prefixFree_isUnit.words_cons all ended hunit hstream
      have himages := ih hrest (fun u hu => all u (List.mem_cons_of_mem _ hu)) hnext
      rw [List.map_cons, List.map_cons, himage, himages]

/-- The header that is read one byte behind. -/
theorem header_behind {header content rest : List UInt8} {size : ℕ} (fits : size < 256 ^ 4)
    (whole : header.length = headerSize)
    (stream : header ++ content = x :: (leBytes 4 size ++ rest)) :
    ∃ b₀ b₁ b₂ b₃, header = [x, b₀, b₁, b₂] ∧ leValue [b₀, b₁, b₂, b₃] = size ∧
      content = b₃ :: rest := by
  have hsplit : header ++ content =
      [x, UInt8.ofNat size, UInt8.ofNat (size / 256), UInt8.ofNat (size / 256 / 256)] ++
        UInt8.ofNat (size / 256 / 256 / 256) :: rest := stream
  obtain ⟨hheader, hcontent⟩ := List.append_inj hsplit whole
  exact ⟨_, _, _, _, hheader, leValue_leBytes 4 size fits, hcontent⟩

section Headers

variable {b₀ b₁ b₂ b₃ : UInt8}

/-- Both headers say the same if their bytes are all the same. -/
theorem eq_mul_of_same_header
    (same : leValue [x, b₀, b₁, b₂] = leValue [b₀, b₁, b₂, b₃]) :
    b₃ = x ∧ leValue [b₀, b₁, b₂, b₃] = x.toNat * 0x01010101 := by
  have hx := x.toNat_lt
  have h₀ := b₀.toNat_lt
  have h₁ := b₁.toNat_lt
  have h₂ := b₂.toNat_lt
  have h₃ := b₃.toNat_lt
  rw [leValue_four, leValue_four] at same
  rw [leValue_four]
  have hfirst : b₀.toNat = x.toNat := by omega
  have hsecond : b₁.toNat = x.toNat := by omega
  have hthird : b₂.toNat = x.toNat := by omega
  have hfourth : b₃.toNat = x.toNat := by omega
  exact ⟨UInt8.toNat_inj.mp hfourth, by omega⟩

/-- Both headers say that no image follows if the frame is empty. -/
theorem eq_zero_of_no_image (read : ¬ReadsImage (leValue [x, b₀, b₁, b₂]))
    (meant : ¬ReadsImage (leValue [b₀, b₁, b₂, b₃])) :
    x ≤ 1 ∧ b₃ = 0 ∧ leValue [b₀, b₁, b₂, b₃] = 0 := by
  rw [leValue_four, readsImage_iff] at read meant
  rw [leValue_four, UInt8.le_iff_toNat_le, ← UInt8.toNat_inj]
  show x.toNat ≤ 1 ∧ b₃.toNat = 0 ∧ _
  omega

end Headers

theorem recovers_of_images_eq (fits : ∀ p ∈ payloads, p.length < 256 ^ 4)
    (all : ∀ u ∈ units, IsUnit u)
    (stream : units.flatten ++ tail = x :: encodeFrames 4 payloads)
    (images : units.map unitImage = payloads.map frameImage) : Recovers x payloads := by
  induction payloads generalizing x units with
  | nil => trivial
  | cons payload others ih =>
    cases units with
    | nil => exact absurd images (List.cons_ne_nil _ _).symm
    | cons u units =>
      obtain ⟨himage, hothers⟩ := List.cons.inj images
      obtain ⟨header, content, rfl, hwhole, hcontent⟩ :=
        exists_append_of_isUnit (all u List.mem_cons_self)
      have hrecovers (y : UInt8) (hnext : units.flatten ++ tail = y :: encodeFrames 4 others) :
          Recovers y others :=
        ih (fun p hp => fits p (List.mem_cons_of_mem _ hp))
          (fun u hu => all u (List.mem_cons_of_mem _ hu)) hnext hothers
      rw [List.flatten_cons, List.append_assoc, List.append_assoc, encodeFrames_cons, encodeFrame,
        List.append_assoc] at stream
      obtain ⟨b₀, b₁, b₂, b₃, rfl, hsize, hrest⟩ :=
        header_behind (fits payload List.mem_cons_self) hwhole stream
      rw [unitImage_append hwhole, frameImage, ← hsize] at himage
      by_cases hreads : ReadsImage (leValue [x, b₀, b₁, b₂])
      · -- the image read is the one that is meant, so both headers say the same
        rw [if_pos hreads] at himage
        by_cases hmeant : ReadsImage (leValue [b₀, b₁, b₂, b₃])
        · rw [if_pos hmeant, Option.some_inj] at himage
          subst himage
          rw [readSize, if_pos hreads] at hcontent
          obtain ⟨rfl, hvalue⟩ := eq_mul_of_same_header (hcontent.symm.trans hsize.symm)
          obtain ⟨hall, hnext⟩ := eq_replicate_of_append hrest
          refine .inr ⟨?_, ?_, hrecovers _ hnext⟩
          · rw [readsImage_iff] at hmeant
            rw [UInt8.le_iff_toNat_le]
            show 1 ≤ _
            omega
          · rwa [← hsize, hvalue] at hall
        · rw [if_neg hmeant] at himage
          exact absurd himage (Option.some_ne_none _)
      · -- nothing is read, and nothing is meant to be
        rw [if_neg hreads] at himage
        by_cases hmeant : ReadsImage (leValue [b₀, b₁, b₂, b₃])
        · rw [if_pos hmeant] at himage
          exact absurd himage.symm (Option.some_ne_none _)
        · obtain ⟨hsmall, rfl, hzero⟩ := eq_zero_of_no_image hreads hmeant
          rw [readSize, if_neg hreads] at hcontent
          obtain rfl := List.eq_nil_of_length_eq_zero (hsize.symm.trans hzero)
          obtain rfl := List.eq_nil_of_length_eq_zero hcontent
          exact .inl ⟨hsmall, rfl, hrecovers 0 hrest⟩

end Behind

/-! ## The frames that are read as they are meant -/

/-- A unit with the image of a frame is not longer than the frame. -/
theorem length_le_of_image_eq {unit payload : List UInt8} (is_unit : IsUnit unit)
    (image : unitImage unit = frameImage payload) :
    unit.length ≤ (encodeFrame 4 payload).length := by
  rw [length_encodeFrame]
  rw [unitImage, frameImage] at image
  by_cases hreads : ReadsImage (leValue (unit.take headerSize))
  · rw [if_pos hreads] at image
    by_cases hmeant : ReadsImage payload.length
    · rw [if_pos hmeant, Option.some_inj] at image
      rw [← image, List.length_drop]
      exact Nat.sub_le_iff_le_add'.mp (Nat.le_refl _)
    · rw [if_neg hmeant] at image
      exact absurd image (Option.some_ne_none _)
  · rw [is_unit, readSize, if_neg hreads]
    exact Nat.le_add_right _ _

theorem length_flatten_le {units payloads : List (List UInt8)} (all : ∀ u ∈ units, IsUnit u)
    (images : units.map unitImage = payloads.map frameImage) :
    units.flatten.length ≤ (encodeFrames 4 payloads).length := by
  induction units generalizing payloads with
  | nil => exact Nat.zero_le _
  | cons u units ih =>
    cases payloads with
    | nil => exact absurd images (List.cons_ne_nil _ _)
    | cons payload payloads =>
      obtain ⟨himage, hothers⟩ := List.cons.inj images
      have hfirst := length_le_of_image_eq (all u List.mem_cons_self) himage
      have hrest := ih (fun v hv => all v (List.mem_cons_of_mem _ hv)) hothers
      rw [List.flatten_cons, List.length_append, encodeFrames_cons, List.length_append]
      exact Nat.add_le_add hfirst hrest

/-- **The units of a stream of frames** have the images of the frames if and only if the
frames behind a payload of one byte are read as they are meant. -/
theorem images_eq_iff {payloads units : List (List UInt8)} {tail : List UInt8}
    (fits : ∀ p ∈ payloads, p.length < 256 ^ 4) (all : ∀ u ∈ units, IsUnit u)
    (ended : Ended IsUnit tail) (stream : units.flatten ++ tail = encodeFrames 4 payloads) :
    units.map unitImage = payloads.map frameImage ↔ InStep payloads := by
  fun_induction InStep payloads generalizing units with
  | case1 =>
    have hended : Ended IsUnit (units.flatten ++ tail) := by
      rw [stream]
      exact ended_of_header (by decide)
    rw [words_nil all hended]
    exact iff_of_true rfl trivial
  | case2 x others =>
    -- the unit is the header alone
    have hunit : IsUnit (leBytes 4 1) := by
      rw [IsUnit]
      decide
    have himage : unitImage (leBytes 4 1) = frameImage [x] := by
      have hnone : unitImage (leBytes 4 1) = none := by decide
      exact hnone.trans (if_neg (show ¬ReadsImage 1 by decide)).symm
    rw [encodeFrames_cons, encodeFrame, List.append_assoc, List.singleton_append] at stream
    obtain ⟨units, rfl, hnext⟩ := prefixFree_isUnit.words_cons all ended hunit stream
    have hall : ∀ u ∈ units, IsUnit u := fun u hu => all u (List.mem_cons_of_mem _ hu)
    have hfits : ∀ p ∈ others, p.length < 256 ^ 4 := fun p hp =>
      fits p (List.mem_cons_of_mem _ hp)
    rw [List.map_cons, List.map_cons, himage, List.cons_inj_right]
    exact ⟨recovers_of_images_eq hfits hall hnext,
      fun recovers => images_eq_of_recovers recovers hall ended hnext⟩
  | case3 payload others not_one ih =>
    have hlength : payload.length ≠ 1 := by
      intro hone
      obtain ⟨x, rfl⟩ := List.length_eq_one_iff.mp hone
      exact not_one x rfl
    obtain ⟨hunit, himage⟩ := isUnit_encodeFrame (fits payload List.mem_cons_self) hlength
    obtain ⟨units, rfl, hnext⟩ := prefixFree_isUnit.words_cons all ended hunit stream
    rw [List.map_cons, List.map_cons, himage, List.cons_inj_right]
    exact ih (fun p hp => fits p (List.mem_cons_of_mem _ hp))
      (fun u hu => all u (List.mem_cons_of_mem _ hu)) hnext

end PythonClient

end PiVision
