import PiVision.Pipeline.Normalization
import Mathlib.Data.Vector.Mem

/-!
# Calls of the normalizer

Between two calls the static memory of the normalizer keeps the extremes put back and an
average that some frame can have. A call completes if it divides by no zero: the deviation
must not vanish if a pixel exceeds the average, and the pixels must not all become the same.
What it leaves is then an expression of the grayscale image and the average carried over.
-/

namespace PiVision

open Statistics Triples

namespace NormalizerState

/-- The grayscale image of a frame. -/
def grayscale (frame : ColorImage) : GrayscaleImage :=
  createGrayscaleImage init.grayscaleImage frame

/-- The static memory between two calls. -/
structure Ready (s : NormalizerState) : Prop where
  maxIntensity_eq : s.maxIntensity = 0
  minIntensity_eq : s.minIntensity = 255
  admissible : s.averageIntensity = 0 ∨
    20 ≤ s.averageIntensity.toNat ∧ s.averageIntensity.toNat ≤ 240

/-- The frames that a process has normalized, and what they have left. -/
structure CompletedHistory where
  frames : List ColorImage
  state : NormalizerState
  completed : frames.foldlM exec init = some state

/-- The mean of the intensities kept of the next frame, with what is carried over. -/
def CompletedHistory.meanOf (history : CompletedHistory) (frame : ColorImage) : ℕ :=
  mean history.state.averageIntensity (grayscale frame)

/-- The deviation of the next frame from it. -/
def CompletedHistory.rootOf (history : CompletedHistory) (frame : ColorImage) : ℕ :=
  rootSpread (history.meanOf frame) (grayscale frame)

/-- A frame that is normalized behind others. -/
structure CompletedCall extends CompletedHistory where
  frame : ColorImage
  after : NormalizerState
  completes : exec state frame = some after

/-! ## The passes of a call -/

section Passes

variable (averageIntensity standardDeviation : UInt32)

/-- What the third pass stores for an intensity, where it can divide. -/
def scaledIntensity (c : UInt8) : UInt8 :=
  if c.toUInt32 > averageIntensity then
    ((c.toUInt32 - averageIntensity) / standardDeviation).toUInt8
  else c

/-- The image behind the third pass. -/
def scaledImage (gray : GrayscaleImage) : GrayscaleImage :=
  (filtered gray).map (scaledIntensity averageIntensity standardDeviation)

/-- The third pass can divide. -/
def Scalable (gray : GrayscaleImage) : Prop :=
  (∃ g ∈ gray.toList, averageIntensity.toNat < kept g) → standardDeviation ≠ 0

end Passes

/-- `maxIntensity` behind the third pass. -/
def highest (scaled : GrayscaleImage) : UInt32 :=
  scaled.toList.foldl (fun max c => if c.toUInt32 > max then c.toUInt32 else max) 0

/-- `minIntensity` behind the third pass. -/
def lowest (scaled : GrayscaleImage) : UInt32 :=
  scaled.toList.foldl (fun min c => if c.toUInt32 < min then c.toUInt32 else min) 255

/-- The image behind the fourth pass. -/
def stretchedImage (scaled : GrayscaleImage) : GrayscaleImage :=
  scaled.map (stretchIntensity (lowest scaled) (255 / (highest scaled - lowest scaled)))

/-- What a completed call leaves of a grayscale image and an average. -/
def normalized (gray : GrayscaleImage) (averageIntensity : UInt32) : NormalizerState where
  grayscaleImage := gray
  normalizedImage := stretchedImage
    (scaledImage averageIntensity (deviation averageIntensity (filtered gray) gray) gray)
  maxIntensity := 0
  minIntensity := 255
  averageIntensity := averageIntensity
  standardDeviation := deviation averageIntensity (filtered gray) gray

section Call

variable {averageIntensity standardDeviation : UInt32} {gray : GrayscaleImage}

theorem filterIntensity_gt_iff (g : UInt8) :
    (filterIntensity g).toUInt32 > averageIntensity ↔ averageIntensity.toNat < kept g := by
  rw [gt_iff_lt, UInt32.lt_iff_toNat_lt, UInt8.toNat_toUInt32, kept]

theorem mmap_scaleIntensity_eq_some (scalable : Scalable averageIntensity standardDeviation gray) :
    (filtered gray).mmap (scaleIntensity averageIntensity standardDeviation) =
      some (scaledImage averageIntensity standardDeviation gray) := by
  refine Block.mmap_eq_some _ fun c hc => ?_
  rw [filtered, List.Vector.toList_map] at hc
  obtain ⟨g, hg, rfl⟩ := List.mem_map.mp hc
  rw [scaleIntensity, scaledIntensity]
  by_cases habove : (filterIntensity g).toUInt32 > averageIntensity
  · have hroot := scalable ⟨g, hg, (filterIntensity_gt_iff g).mp habove⟩
    rw [if_pos habove, if_pos habove, divide, if_neg hroot]
    rfl
  · rw [if_neg habove, if_neg habove]

theorem mmap_scaleIntensity_eq_none (stuck : ¬Scalable averageIntensity standardDeviation gray) :
    (filtered gray).mmap (scaleIntensity averageIntensity standardDeviation) = none := by
  rw [Scalable, Classical.not_imp, not_not] at stuck
  obtain ⟨⟨g, hg, habove⟩, hroot⟩ := stuck
  refine Block.mmap_eq_none _ ⟨filterIntensity g, ?_, ?_⟩
  · rw [filtered, List.Vector.toList_map]
    exact List.mem_map_of_mem hg
  · rw [scaleIntensity, if_pos ((filterIntensity_gt_iff g).mpr habove), divide, if_pos hroot]
    rfl

theorem extent_eq_zero_iff {scaled : GrayscaleImage} :
    highest scaled - lowest scaled = 0 ↔ highest scaled = lowest scaled := by
  rw [UInt32.sub_eq_iff_eq_add, UInt32.zero_add]

/-- **A call** completes if and only if both kinds of divisors are not zero. -/
theorem normalizeWith_eq_some_iff {after : NormalizerState} :
    (normalizeWith gray 0 255 averageIntensity).map resetExtremes = some after ↔
      Scalable averageIntensity (deviation averageIntensity (filtered gray) gray) gray ∧
        highest (scaledImage averageIntensity
            (deviation averageIntensity (filtered gray) gray) gray) ≠
          lowest (scaledImage averageIntensity
            (deviation averageIntensity (filtered gray) gray) gray) ∧
        after = normalized gray averageIntensity := by
  generalize hroot : deviation averageIntensity (filtered gray) gray = standardDeviation
  by_cases scalable : Scalable averageIntensity standardDeviation gray
  · have hpass := mmap_scaleIntensity_eq_some scalable
    generalize hscaled : scaledImage averageIntensity standardDeviation gray = scaled at hpass ⊢
    have hcall : (normalizeWith gray 0 255 averageIntensity).map resetExtremes =
        (divide 255 (highest scaled - lowest scaled)).map
          fun _ => normalized gray averageIntensity := by
      unfold normalizeWith
      unfold filtered at hpass hroot
      simp only [hroot, hpass, Option.bind_eq_bind, Option.bind_some, Option.pure_def]
      change Option.map resetExtremes ((divide 255 (highest scaled - lowest scaled)).bind _) = _
      rw [divide]
      by_cases hsame : highest scaled - lowest scaled = 0
      · rw [if_pos hsame]
        rfl
      · rw [if_neg hsame, Option.bind_some, Option.map_some, Option.map_some, normalized,
          filtered, hroot, hscaled]
        rfl
    rw [hcall, divide]
    by_cases hsame : highest scaled = lowest scaled
    · rw [if_pos (extent_eq_zero_iff.mpr hsame), Option.map_none]
      simp [hsame]
    · rw [if_neg (mt extent_eq_zero_iff.mp hsame), Option.map_some, Option.some_inj]
      exact ⟨fun heq => ⟨scalable, hsame, heq.symm⟩, fun h => h.2.2.symm⟩
  · have hpass := mmap_scaleIntensity_eq_none scalable
    have hcall : normalizeWith gray 0 255 averageIntensity = none := by
      unfold normalizeWith
      unfold filtered at hpass hroot
      simp only [hroot, hpass]
      rfl
    rw [hcall, Option.map_none]
    simp [scalable]

end Call

/-! ## The passes as numbers -/

section Numbers

variable {averageIntensity standardDeviation : UInt32} {gray scaled : GrayscaleImage}

theorem toNat_scaledIntensity (g : UInt8) :
    (scaledIntensity averageIntensity standardDeviation (filterIntensity g)).toNat =
      level averageIntensity.toNat standardDeviation.toNat (kept g) := by
  have hkept := kept_mem g
  rw [scaledIntensity, level]
  by_cases habove : (filterIntensity g).toUInt32 > averageIntensity
  · have hlt := (filterIntensity_gt_iff g).mp habove
    have hle : averageIntensity ≤ (filterIntensity g).toUInt32 := UInt32.le_of_lt habove
    have hquotient := Nat.div_le_self (kept g - averageIntensity.toNat) standardDeviation.toNat
    rw [if_pos habove, if_pos hlt, UInt32.toNat_toUInt8, UInt32.toNat_div,
      UInt32.toNat_sub_of_le _ _ hle, UInt8.toNat_toUInt32, ← kept]
    exact Nat.mod_eq_of_lt (by omega)
  · rw [if_neg habove, if_neg (mt (filterIntensity_gt_iff g).mpr habove), kept]

/-- The third pass, pixel by pixel. -/
theorem toList_scaledImage :
    (scaledImage averageIntensity standardDeviation gray).toList.map UInt8.toNat =
      gray.toList.map fun g => level averageIntensity.toNat standardDeviation.toNat (kept g) := by
  rw [scaledImage, filtered, List.Vector.toList_map, List.Vector.toList_map, List.map_map,
    List.map_map]
  exact List.map_congr_left fun g _ => toNat_scaledIntensity g

theorem toNat_highest : (highest scaled).toNat = (scaled.toList.map UInt8.toNat).foldl max 0 := by
  rw [highest, List.foldl_map]
  refine (List.foldl_hom UInt32.toNat fun m c => ?_).symm
  by_cases habove : c.toUInt32 > m
  · have hlt := UInt32.lt_iff_toNat_lt.mp habove
    rw [if_pos habove, UInt8.toNat_toUInt32]
    rw [UInt8.toNat_toUInt32] at hlt
    exact max_eq_right hlt.le
  · have hle := UInt32.not_lt.mp habove
    rw [if_neg habove]
    exact max_eq_left (UInt32.le_iff_toNat_le.mp hle)

theorem toNat_lowest : (lowest scaled).toNat = (scaled.toList.map UInt8.toNat).foldl min 255 := by
  rw [lowest, List.foldl_map]
  refine (List.foldl_hom UInt32.toNat fun m c => ?_).symm
  by_cases hbelow : c.toUInt32 < m
  · have hlt := UInt32.lt_iff_toNat_lt.mp hbelow
    rw [if_pos hbelow, UInt8.toNat_toUInt32]
    rw [UInt8.toNat_toUInt32] at hlt
    exact min_eq_right hlt.le
  · have hle := UInt32.not_lt.mp hbelow
    rw [if_neg hbelow]
    exact min_eq_left (UInt32.le_iff_toNat_le.mp hle)

theorem values_ne_nil (image : GrayscaleImage) : image.toList.map UInt8.toNat ≠ [] := by
  have hlength := image.toList_length
  have hpos := grayscaleImageSize_pos
  intro hnil
  rw [List.map_eq_nil_iff.mp hnil, List.length_nil] at hlength
  omega

theorem mem_values {x : ℕ} (mem : x ∈ scaled.toList.map UInt8.toNat) : 0 ≤ x ∧ x ≤ 255 := by
  obtain ⟨c, -, rfl⟩ := List.mem_map.mp mem
  have hlt := c.toNat_lt
  omega

theorem isGreatest_highest :
    IsGreatest {x | x ∈ scaled.toList.map UInt8.toNat} (highest scaled).toNat := by
  rw [toNat_highest]
  exact isGreatest_foldl_max_of_le (values_ne_nil scaled) fun x hx => (mem_values hx).1

theorem isLeast_lowest :
    IsLeast {x | x ∈ scaled.toList.map UInt8.toNat} (lowest scaled).toNat := by
  rw [toNat_lowest]
  exact isLeast_foldl_min_of_le (values_ne_nil scaled) fun x hx => (mem_values hx).2

/-- The extremes are the same if and only if the third pass makes all pixels the same. -/
theorem highest_eq_lowest_iff :
    highest (scaledImage averageIntensity standardDeviation gray) =
        lowest (scaledImage averageIntensity standardDeviation gray) ↔
      ∃ v, ∀ g ∈ gray.toList,
        level averageIntensity.toNat standardDeviation.toNat (kept g) = v := by
  generalize hscaled : scaledImage averageIntensity standardDeviation gray = scaled
  rw [← UInt32.toNat_inj, toNat_highest, toNat_lowest,
    foldl_max_eq_foldl_min_iff (values_ne_nil scaled) fun x hx => mem_values hx, ← hscaled,
    toList_scaledImage]
  simp only [List.forall_mem_map]

/-- The product of the fourth pass is that of numbers, and fits a byte. -/
theorem toNat_stretched {c : UInt8} (mem : c ∈ scaled.toList) (above : c.toUInt32 > lowest scaled) :
    ((c.toUInt32 - lowest scaled) * (255 / (highest scaled - lowest scaled))).toNat =
        (c.toNat - (lowest scaled).toNat) *
          (255 / ((highest scaled).toNat - (lowest scaled).toNat)) ∧
      (c.toNat - (lowest scaled).toNat) *
          (255 / ((highest scaled).toNat - (lowest scaled).toNat)) ≤ 255 := by
  have hmem : c.toNat ∈ scaled.toList.map UInt8.toNat := List.mem_map_of_mem mem
  have hhigh := isGreatest_highest.2 hmem
  have hlow := isLeast_lowest.2 hmem
  have hextent : lowest scaled ≤ highest scaled :=
    UInt32.le_iff_toNat_le.mpr (hlow.trans hhigh)
  have hlimit : (255 : UInt32).toNat = 255 := rfl
  have hfits := mul_div_le_of_le (Nat.sub_le_sub_right hhigh (lowest scaled).toNat) 255
  refine ⟨?_, hfits⟩
  rw [UInt32.toNat_mul, UInt32.toNat_sub_of_le _ _ (UInt32.le_of_lt above), UInt32.toNat_div,
    UInt32.toNat_sub_of_le _ _ hextent, UInt8.toNat_toUInt32, hlimit]
  exact Nat.mod_eq_of_lt (by omega)

/-- The fourth pass, pixel by pixel. -/
theorem toNat_stretchIntensity {c : UInt8} (mem : c ∈ scaled.toList) :
    (stretchIntensity (lowest scaled) (255 / (highest scaled - lowest scaled)) c).toNat =
      if (lowest scaled).toNat < c.toNat then
        (c.toNat - (lowest scaled).toNat) *
          (255 / ((highest scaled).toNat - (lowest scaled).toNat))
      else c.toNat := by
  have habove_iff : c.toUInt32 > lowest scaled ↔ (lowest scaled).toNat < c.toNat := by
    rw [gt_iff_lt, UInt32.lt_iff_toNat_lt, UInt8.toNat_toUInt32]
  rw [stretchIntensity]
  by_cases habove : c.toUInt32 > lowest scaled
  · obtain ⟨hproduct, hfits⟩ := toNat_stretched mem habove
    rw [if_pos habove, if_pos (habove_iff.mp habove), UInt32.toNat_toUInt8, hproduct]
    exact Nat.mod_eq_of_lt (by omega)
  · rw [if_neg habove, if_neg (mt habove_iff.mpr habove)]

end Numbers

/-! ## The calls of a process -/

section Calls

variable {s after : NormalizerState} {frame : ColorImage}

theorem exec_eq_normalizeWith (ready : Ready s) (frame : ColorImage) :
    exec s frame =
      (normalizeWith (grayscale frame) 0 255
        (average s.averageIntensity (filtered (grayscale frame)))).map resetExtremes := by
  have hgray := createGrayscaleImage_congr frame s.grayscaleImage init.grayscaleImage
  rw [exec, hgray, normalizeImage, ready.maxIntensity_eq, ready.minIntensity_eq]
  rfl

theorem ready_init : Ready init := ⟨rfl, rfl, .inl rfl⟩

theorem Ready.small (ready : Ready s) : s.averageIntensity.toNat ≤ 240 := by
  rcases ready.admissible with hzero | ⟨-, hle⟩
  · rw [hzero]
    exact Nat.zero_le 240
  · exact hle

/-- What a call that completes leaves. -/
theorem eq_normalized_of_exec (ready : Ready s) (completes : exec s frame = some after) :
    after = normalized (grayscale frame)
      (average s.averageIntensity (filtered (grayscale frame))) := by
  rw [exec_eq_normalizeWith ready, normalizeWith_eq_some_iff] at completes
  exact completes.2.2

/-- A call that completes keeps the invariant, with an average of its frame. -/
theorem admissible_of_exec (ready : Ready s) (completes : exec s frame = some after) :
    20 ≤ after.averageIntensity.toNat ∧ after.averageIntensity.toNat ≤ 240 := by
  have haverage : after.averageIntensity =
      average s.averageIntensity (filtered (grayscale frame)) := by
    rw [eq_normalized_of_exec ready completes]
    rfl
  rw [haverage, toNat_average ready.small]
  exact ⟨twenty_le_mean _, mean_le_240 ready.small _⟩

theorem ready_exec (ready : Ready s) (completes : exec s frame = some after) : Ready after := by
  have hadmissible := admissible_of_exec ready completes
  rw [eq_normalized_of_exec ready completes] at hadmissible ⊢
  exact ⟨rfl, rfl, .inr hadmissible⟩

/-- A process that has completed its calls is ready for the next one. -/
theorem ready_of_foldlM {frames : List ColorImage} (ready : Ready s)
    (completed : frames.foldlM exec s = some after) : Ready after := by
  induction frames generalizing s with
  | nil =>
    rw [List.foldlM_nil, Option.pure_def, Option.some_inj] at completed
    exact completed ▸ ready
  | cons frame frames ih =>
    rw [List.foldlM_cons, Option.bind_eq_bind, Option.bind_eq_some_iff] at completed
    obtain ⟨next, hnext, hrest⟩ := completed
    exact ih (ready_exec ready hnext) hrest

theorem CompletedHistory.ready (history : CompletedHistory) : Ready history.state :=
  ready_of_foldlM ready_init history.completed

end Calls

theorem CompletedCall.after_eq (call : CompletedCall) :
    call.after = normalized (grayscale call.frame)
      (average call.state.averageIntensity (filtered (grayscale call.frame))) :=
  eq_normalized_of_exec call.ready call.completes

theorem CompletedCall.grayscaleImage_eq (call : CompletedCall) :
    call.after.grayscaleImage = grayscale call.frame := by
  rw [call.after_eq]
  rfl

theorem CompletedCall.toNat_averageIntensity (call : CompletedCall) :
    call.after.averageIntensity.toNat = call.meanOf call.frame := by
  rw [call.after_eq]
  exact toNat_average call.ready.small _

theorem CompletedCall.toNat_standardDeviation (call : CompletedCall) :
    call.after.standardDeviation.toNat = call.rootOf call.frame := by
  rw [CompletedHistory.rootOf, CompletedHistory.meanOf, ← toNat_average call.ready.small,
    ← toNat_deviation, call.after_eq]
  rfl

theorem CompletedCall.scalable (call : CompletedCall) :
    Scalable call.after.averageIntensity call.after.standardDeviation (grayscale call.frame) := by
  have hcompletes := call.completes
  rw [exec_eq_normalizeWith call.ready, normalizeWith_eq_some_iff] at hcompletes
  rw [call.after_eq]
  exact hcompletes.1

/-- The image behind the third pass of a call. -/
def CompletedCall.scaled (call : CompletedCall) : GrayscaleImage :=
  scaledImage call.after.averageIntensity call.after.standardDeviation call.after.grayscaleImage

/-! ## No result is truncated -/

section Range

variable (call : CompletedCall)

/-- The results of a call, those that are stored in bytes before they are, in the words of
the source. -/
structure InRange : Prop where
  average : 20 ≤ call.after.averageIntensity.toNat ∧ call.after.averageIntensity.toNat ≤ 240
  products : ∀ g ∈ call.after.grayscaleImage.toList,
    ((varianceTerm call.after.averageIntensity g).toNat : ℤ) ≡
        product call.after.averageIntensity.toNat g [ZMOD 2 ^ 32] ∧
      0 ≤ product call.after.averageIntensity.toNat g
  channels : call.after.grayscaleImage.toList.map UInt8.toNat =
    (triples call.frame.toList).map fun t => (t.1.toNat + t.2.1.toNat + t.2.2.toNat) / 3
  scaled : ∀ f ∈ (filtered call.after.grayscaleImage).toList,
    f.toUInt32 > call.after.averageIntensity →
    ((f.toUInt32 - call.after.averageIntensity) / call.after.standardDeviation).toNat ≤ 255
  stretched : ∀ v ∈ call.scaled.toList, v.toUInt32 > lowest call.scaled →
    ((v.toUInt32 - lowest call.scaled) *
        (255 / (highest call.scaled - lowest call.scaled))).toNat =
      (v.toNat - (lowest call.scaled).toNat) *
        (255 / ((highest call.scaled).toNat - (lowest call.scaled).toNat)) ∧
    ((v.toUInt32 - lowest call.scaled) *
        (255 / (highest call.scaled - lowest call.scaled))).toNat ≤ 255

/-- **No result is truncated**, behind any number of calls. -/
theorem inRange : InRange call where
  average := admissible_of_exec call.ready call.completes
  products g _ := by
    obtain ⟨habove, hbelow⟩ := admissible_of_exec call.ready call.completes
    exact ⟨varianceTerm_modEq call.after.averageIntensity g, product_nonneg habove hbelow g⟩
  channels := by
    rw [call.grayscaleImage_eq, grayscale, toList_createGrayscaleImage, List.map_map]
    exact List.map_congr_left fun t _ => toNat_grayPixel t
  scaled f _ habove := by
    have hlt := f.toNat_lt
    have hquotient := Nat.div_le_self (f.toNat - call.after.averageIntensity.toNat)
      call.after.standardDeviation.toNat
    rw [UInt32.toNat_div, UInt32.toNat_sub_of_le _ _ (UInt32.le_of_lt habove),
      UInt8.toNat_toUInt32]
    omega
  stretched v mem habove := by
    obtain ⟨hproduct, hfits⟩ := toNat_stretched mem habove
    exact ⟨hproduct, hproduct ▸ hfits⟩

end Range

/-! ## The extremes of the output -/

section Output

variable (call : CompletedCall)

/-- The intensities behind the third pass, by their places. -/
def CompletedCall.scaledAt (i : Fin grayscaleImageSize) : ℕ := (call.scaled.get i).toNat

/-- The intensities of the output, by their places. -/
def CompletedCall.outputAt (i : Fin grayscaleImageSize) : ℕ :=
  (call.after.normalizedImage.get i).toNat

theorem range_scaledAt :
    Set.range call.scaledAt = {x | x ∈ call.scaled.toList.map UInt8.toNat} := by
  ext x
  constructor
  · rintro ⟨i, rfl⟩
    exact List.mem_map_of_mem (List.Vector.get_mem i call.scaled)
  · intro hx
    obtain ⟨c, hc, rfl⟩ := List.mem_map.mp hx
    obtain ⟨i, rfl⟩ := (List.Vector.mem_iff_get c call.scaled).mp hc
    exact ⟨i, rfl⟩

/-- An output, from the intensity behind the third pass at its place. -/
theorem outputAt_eq (i : Fin grayscaleImageSize) :
    call.outputAt i =
      if (lowest call.scaled).toNat < call.scaledAt i then
        (call.scaledAt i - (lowest call.scaled).toNat) *
          (255 / ((highest call.scaled).toNat - (lowest call.scaled).toNat))
      else call.scaledAt i := by
  have hscaled : call.after.normalizedImage = stretchedImage call.scaled := by
    rw [CompletedCall.scaled, call.after_eq]
    rfl
  rw [CompletedCall.outputAt, hscaled, stretchedImage, List.Vector.get_map]
  exact toNat_stretchIntensity (List.Vector.get_mem i call.scaled)

/-- The output is the stretched image, in the order of its intensities and with the darkest
pixels black. -/
def Stretched : Prop :=
  (∃ lo hi, Stretch 255 call.scaledAt call.outputAt lo hi) ∧
    (∀ i j, call.scaledAt i ≤ call.scaledAt j → call.outputAt i ≤ call.outputAt j) ∧
    ∀ i, (∀ j, call.scaledAt i ≤ call.scaledAt j) → call.outputAt i = 0

/-- The fourth pass leaves the darkest pixels as they are, so they must be black before. -/
theorem stretched_iff_lowest : Stretched call ↔ (lowest call.scaled).toNat = 0 := by
  have hleast : IsLeast (Set.range call.scaledAt) (lowest call.scaled).toNat := by
    rw [range_scaledAt]
    exact isLeast_lowest
  have hgreatest : IsGreatest (Set.range call.scaledAt) (highest call.scaled).toNat := by
    rw [range_scaledAt]
    exact isGreatest_highest
  constructor
  · rintro ⟨-, -, hblack⟩
    obtain ⟨i, hi⟩ := hleast.1
    have hout := hblack i fun j => hi ▸ hleast.2 ⟨j, rfl⟩
    rwa [outputAt_eq, hi, if_neg (Nat.lt_irrefl _)] at hout
  · intro hzero
    have hstretch : Stretch 255 call.scaledAt call.outputAt (lowest call.scaled).toNat
        (highest call.scaled).toNat := by
      refine ⟨hleast, hgreatest, fun i => ?_⟩
      rw [outputAt_eq, hzero]
      by_cases habove : 0 < call.scaledAt i
      · rw [if_pos habove]
      · have hdark : call.scaledAt i = 0 := by omega
        rw [if_neg habove, hdark, Nat.zero_sub, Nat.zero_mul]
    exact ⟨⟨_, _, hstretch⟩, fun i j => hstretch.le_of_le, fun i => hstretch.eq_zero_of_least⟩

/-- The third pass makes a pixel black if it exceeds the mean by less than a deviation. -/
theorem lowest_eq_zero_iff : (lowest call.scaled).toNat = 0 ↔
    ∃ g ∈ (grayscale call.frame).toList,
      call.meanOf call.frame < kept g ∧
        kept g - call.meanOf call.frame < call.rootOf call.frame := by
  have hvalues : call.scaled.toList.map UInt8.toNat = (grayscale call.frame).toList.map fun g =>
      level (call.meanOf call.frame) (call.rootOf call.frame) (kept g) := by
    rw [CompletedCall.scaled, toList_scaledImage, call.grayscaleImage_eq,
      call.toNat_averageIntensity, call.toNat_standardDeviation]
  have hleast : IsLeast {x | x ∈ call.scaled.toList.map UInt8.toNat} (lowest call.scaled).toNat :=
    isLeast_lowest
  have hroot := call.scalable
  rw [Scalable, Ne, ← UInt32.toNat_inj, call.toNat_averageIntensity,
    call.toNat_standardDeviation] at hroot
  rw [hvalues] at hleast
  generalize call.meanOf call.frame = mean at hleast hroot ⊢
  generalize call.rootOf call.frame = root at hleast hroot ⊢
  constructor
  · intro hzero
    obtain ⟨g, hg, hlevel⟩ := List.mem_map.mp hleast.1
    have hkept := kept_mem g
    rw [hzero, level] at hlevel
    by_cases habove : mean < kept g
    · rw [if_pos habove, Nat.div_eq_zero_iff] at hlevel
      exact ⟨g, hg, habove, hlevel.resolve_left (hroot ⟨g, hg, habove⟩)⟩
    · rw [if_neg habove] at hlevel
      omega
  · rintro ⟨g, hg, habove, hless⟩
    have hlevel : level mean root (kept g) = 0 := by
      rw [level, if_pos habove, Nat.div_eq_of_lt hless]
    exact Nat.le_zero.mp (hleast.2 (List.mem_map.mpr ⟨g, hg, hlevel⟩))

/-- **The stretch** of the fourth pass is the intended one if and only if some pixel exceeds
the mean by less than a deviation. -/
theorem stretched_iff : Stretched call ↔
    ∃ g ∈ (grayscale call.frame).toList,
      call.meanOf call.frame < kept g ∧
        kept g - call.meanOf call.frame < call.rootOf call.frame := by
  rw [stretched_iff_lowest, lowest_eq_zero_iff]

end Output

/-! ## A frame of two halves -/

/-- The frame whose halves differ by two. -/
def halves : ColorImage := twoToneFrame 100 102 ⟨153600, by decide⟩

theorem grayscale_halves : grayscale halves = twoTone 100 102 ⟨153600, by decide⟩ :=
  createGrayscaleImage_twoToneFrame _

theorem mean_halves : mean 0 (grayscale halves) = 101 := by
  have hkept : keptSum (grayscale halves) = 153600 * 100 + 153600 * 102 := by
    rw [grayscale_halves, keptSum, sum_map_twoTone]
    rfl
  rw [mean, hkept, grayscaleImageSize_eq]
  rfl

theorem rootSpread_halves : rootSpread 101 (grayscale halves) = 1 := by
  have hspread : spread 101 (grayscale halves) = 307200 := by
    rw [grayscale_halves, spread, sum_map_twoTone]
    rfl
  have hroot : Nat.sqrt 1 = 1 := Nat.sqrt_eq 1
  rw [rootSpread, hspread, grayscaleImageSize_eq]
  exact hroot

theorem average_halves :
    average init.averageIntensity (filtered (grayscale halves)) = 101 := by
  rw [← UInt32.toNat_inj, toNat_average ready_init.small]
  exact mean_halves

theorem exec_halves : exec init halves = some (normalized (grayscale halves) 101) := by
  have hroot := toNat_deviation 101 (grayscale halves)
  have hmean : (101 : UInt32).toNat = 101 := rfl
  rw [hmean, rootSpread_halves] at hroot
  rw [exec_eq_normalizeWith ready_init, average_halves, normalizeWith_eq_some_iff]
  refine ⟨fun _ hzero => ?_, fun hsame => ?_, rfl⟩
  · rw [hzero] at hroot
    exact absurd hroot (by decide)
  · obtain ⟨v, hv⟩ := highest_eq_lowest_iff.mp hsame
    rw [hroot, grayscale_halves] at hv
    have hdark := hv 100 (left_mem_twoTone (by decide))
    have hbright := hv 102 (right_mem_twoTone (by decide))
    exact absurd (hdark.trans hbright.symm) (by decide)

/-- The call that normalizes it first. -/
def halvesCall : CompletedCall := ⟨⟨[], init, rfl⟩, halves, _, exec_halves⟩

/-- Its brighter half becomes the darkest of the third pass, and is not black. -/
theorem halves_not_stretched : ¬Stretched halvesCall := by
  rw [stretched_iff_lowest, lowest_eq_zero_iff]
  rintro ⟨g, hg, habove, hless⟩
  have hmean : halvesCall.meanOf halvesCall.frame = 101 := mean_halves
  have hroot : halvesCall.rootOf halvesCall.frame = 1 := by
    rw [CompletedHistory.rootOf, hmean]
    exact rootSpread_halves
  omega

end NormalizerState

end PiVision
