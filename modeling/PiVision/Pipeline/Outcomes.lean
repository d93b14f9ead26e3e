import PiVision.Pipeline.Contrast
import Mathlib.Algebra.Group.Action.Defs

/-!
# Which frames can be normalized

A call divides by the deviation and by the extent of the image behind the third pass. Both
can be zero: the deviation is, for a frame whose intensities hardly vary, and the extent is
where the third pass makes all pixels the same, as in a uniform frame. Whether a call
completes, and with which output, depends on the frame and the mean of its intensities, and
by the mean on what the call before has left in `averageIntensity`.
-/

namespace PiVision

namespace NormalizerState

/-! ## The divisors -/

section Divisors

variable {s : NormalizerState} {gray : GrayscaleImage}

theorem rootSpread_ne_zero_iff (m : ℕ) :
    rootSpread m gray ≠ 0 ↔ (grayscaleImageSize : ℤ) ≤ spread m gray % 2 ^ 32 := by
  have hpos := grayscaleImageSize_pos
  rw [rootSpread, Ne, Nat.sqrt_eq_zero, Nat.div_eq_zero_iff]
  have hnonneg := Int.emod_nonneg (spread m gray) (show (2 ^ 32 : ℤ) ≠ 0 by decide)
  omega

/-- The third pass can divide unless a pixel exceeds the mean and the intensities do not vary
enough. -/
theorem scalable_iff (small : s.averageIntensity.toNat ≤ 240) :
    Scalable (average s.averageIntensity (filtered gray))
        (deviation (average s.averageIntensity (filtered gray)) (filtered gray) gray) gray ↔
      ((∃ g ∈ gray.toList, mean s.averageIntensity gray < kept g) →
        (grayscaleImageSize : ℤ) ≤ spread (mean s.averageIntensity gray) gray % 2 ^ 32) := by
  rw [Scalable, Ne, ← UInt32.toNat_inj, toNat_deviation, toNat_average small]
  exact imp_congr Iff.rfl (rootSpread_ne_zero_iff _)

theorem level_eq_iff {m root intensity v : ℕ} (divides : m < intensity → root ≠ 0) :
    level m root intensity = v ↔
      (intensity ≤ m → intensity = v) ∧
        (m < intensity → v * root ≤ intensity - m ∧ intensity - m < (v + 1) * root) := by
  rw [level]
  by_cases habove : m < intensity
  · have hroot := Nat.pos_of_ne_zero (divides habove)
    rw [if_pos habove, Nat.div_eq_iff hroot, Nat.add_mul, Nat.one_mul]
    constructor
    · rintro ⟨hlow, hhigh⟩
      exact ⟨fun hle => by omega, fun _ => ⟨hlow, by omega⟩⟩
    · rintro ⟨-, h⟩
      obtain ⟨hlow, hhigh⟩ := h habove
      exact ⟨hlow, by omega⟩
  · rw [if_neg habove]
    exact ⟨fun heq => ⟨fun _ => heq, fun h => absurd h habove⟩, fun h => h.1 (by omega)⟩

/-- A call completes if the third pass can divide and does not make all pixels the same. -/
theorem exec_isSome_iff (ready : Ready s) (frame : ColorImage) :
    (exec s frame).isSome ↔
      Scalable (average s.averageIntensity (filtered (grayscale frame)))
          (deviation (average s.averageIntensity (filtered (grayscale frame)))
            (filtered (grayscale frame)) (grayscale frame)) (grayscale frame) ∧
        ¬∃ v, ∀ g ∈ (grayscale frame).toList,
          level (mean s.averageIntensity (grayscale frame))
            (rootSpread (mean s.averageIntensity (grayscale frame)) (grayscale frame))
            (kept g) = v := by
  rw [Option.isSome_iff_exists, exec_eq_normalizeWith ready]
  simp only [normalizeWith_eq_some_iff]
  rw [exists_and_left, exists_and_left, Ne, highest_eq_lowest_iff, toNat_deviation,
    toNat_average ready.small]
  simp only [exists_eq, and_true]

/-- **The divisors** of a call are not zero if and only if the intensities vary enough, where
one exceeds the mean, and the third pass does not make them the same. -/
theorem divisors_ne_zero_iff (history : CompletedHistory) (frame : ColorImage) :
    (exec history.state frame).isSome ↔
      ((∃ g ∈ (grayscale frame).toList, history.meanOf frame < kept g) →
        (grayscaleImageSize : ℤ) ≤
          spread (history.meanOf frame) (grayscale frame) % 2 ^ 32) ∧
      ¬∃ v, ∀ g ∈ (grayscale frame).toList,
        (kept g ≤ history.meanOf frame → kept g = v) ∧
          (history.meanOf frame < kept g →
            v * history.rootOf frame ≤ kept g - history.meanOf frame ∧
              kept g - history.meanOf frame < (v + 1) * history.rootOf frame) := by
  rw [exec_isSome_iff history.ready, scalable_iff history.ready.small]
  refine and_congr_right fun hvaries => not_congr (exists_congr fun v => ?_)
  refine forall₂_congr fun g hg => level_eq_iff fun habove => ?_
  exact (rootSpread_ne_zero_iff _).mpr (hvaries ⟨g, hg, habove⟩)

/-- The mean of a uniform frame is its intensity as it is kept. -/
theorem mean_uniform (small : s.averageIntensity.toNat ≤ 240) (x : UInt8) :
    mean s.averageIntensity (twoTone x x 0) = kept x := by
  have hsize := grayscaleImageSize_eq
  have hsum : keptSum (twoTone x x 0) = grayscaleImageSize * kept x := by
    rw [keptSum, sum_map_twoTone, Fin.val_zero, zero_nsmul, zero_add, Nat.sub_zero, smul_eq_mul]
  rw [mean, hsum, Nat.add_mul_div_left _ _ grayscaleImageSize_pos,
    Nat.div_eq_of_lt (show s.averageIntensity.toNat < grayscaleImageSize by omega), Nat.zero_add]

/-- A uniform frame has no extent, whatever was normalized before. -/
theorem exec_uniform (ready : Ready s) (x : UInt8) : exec s (twoToneFrame x x 0) = none := by
  rw [← Option.not_isSome_iff_eq_none, exec_isSome_iff ready]
  rintro ⟨-, hvaries⟩
  refine hvaries ⟨kept x, fun g hg => ?_⟩
  rw [grayscale, createGrayscaleImage_twoToneFrame] at hg ⊢
  have hx : g = x := (mem_twoTone hg).elim id id
  rw [mean_uniform ready.small, hx, level, if_neg (Nat.lt_irrefl _)]

/-- The first frame of a process may be uniform. -/
theorem divides_by_zero : exec init (twoToneFrame 128 128 0) = none :=
  exec_uniform ready_init 128

end Divisors

/-! ## What is left of the call before -/

section Carried

variable {s : NormalizerState}

/-- Frames of one mean are treated in one way. -/
theorem average_congr {one other : UInt32} (one_small : one.toNat ≤ 240)
    (other_small : other.toNat ≤ 240) {gray : GrayscaleImage}
    (same : mean one gray = mean other gray) :
    average one (filtered gray) = average other (filtered gray) := by
  rw [← UInt32.toNat_inj, toNat_average one_small, toNat_average other_small, same]

/-- The frame of an intensity of 100 whose first pixels are darker by one: its mean is 99 or
100, as less or as much is carried over as there are darker pixels. -/
def edgeFrame (count : Fin (grayscaleImageSize + 1)) : ColorImage := twoToneFrame 99 100 count

variable {count : Fin (grayscaleImageSize + 1)}

theorem grayscale_edgeFrame : grayscale (edgeFrame count) = twoTone 99 100 count :=
  createGrayscaleImage_twoToneFrame _

theorem keptSum_edgeFrame (count : Fin (grayscaleImageSize + 1)) :
    keptSum (grayscale (edgeFrame count)) + count = grayscaleImageSize * 100 := by
  have hcount := count.isLt
  have hdark : kept 99 = 99 := rfl
  have hbright : kept 100 = 100 := rfl
  rw [grayscale_edgeFrame, keptSum, sum_map_twoTone, hdark, hbright, smul_eq_mul, smul_eq_mul]
  omega

/-- With less carried over the deviation vanishes, and a pixel exceeds the mean. -/
theorem exec_edgeFrame_of_lt (ready : Ready s) (less : s.averageIntensity.toNat < count)
    (bounded : (count : ℕ) ≤ 240) : exec s (edgeFrame count) = none := by
  have hsum := keptSum_edgeFrame count
  have hsize := grayscaleImageSize_eq
  have hmean : mean s.averageIntensity (grayscale (edgeFrame count)) = 99 := by
    rw [mean, Nat.div_eq_iff grayscaleImageSize_pos]
    omega
  have hspread : spread 99 (grayscale (edgeFrame count)) =
      ((grayscaleImageSize - count : ℕ) : ℤ) := by
    have hdark : product 99 99 = 0 := rfl
    have hbright : product 99 100 = 1 := rfl
    rw [grayscale_edgeFrame, spread, sum_map_twoTone, hdark, hbright, nsmul_zero, zero_add,
      nsmul_one]
  have habove : ∃ g ∈ (grayscale (edgeFrame count)).toList, 99 < kept g := by
    rw [grayscale_edgeFrame]
    exact ⟨100, right_mem_twoTone (by omega), by decide⟩
  rw [← Option.not_isSome_iff_eq_none, exec_isSome_iff ready, scalable_iff ready.small, hmean,
    hspread]
  rintro ⟨hvaries, -⟩
  have hle := hvaries habove
  omega

/-- With as much carried over no pixel exceeds the mean, and the intensities differ. -/
theorem exec_edgeFrame_of_eq (ready : Ready s) (same : s.averageIntensity.toNat = count)
    (some : 0 < (count : ℕ)) : (exec s (edgeFrame count)).isSome := by
  have hsum := keptSum_edgeFrame count
  have hsize := grayscaleImageSize_eq
  have hsmall := ready.small
  have hmean : mean s.averageIntensity (grayscale (edgeFrame count)) = 100 := by
    rw [mean, Nat.div_eq_iff grayscaleImageSize_pos]
    omega
  rw [exec_isSome_iff ready, scalable_iff ready.small, hmean, grayscale_edgeFrame]
  constructor
  · rintro ⟨g, hg, habove⟩
    rcases mem_twoTone hg with rfl | rfl
    · exact absurd habove (by decide)
    · exact absurd habove (by decide)
  · rintro ⟨v, hv⟩
    have hdark : kept 99 = v := hv 99 (left_mem_twoTone some)
    have hbright : kept 100 = v := hv 100 (right_mem_twoTone (by omega))
    exact absurd (hdark.trans hbright.symm) (by decide)

/-- Two processes that carry different averages over treat some frame differently. -/
theorem exists_outcome_ne {one other : NormalizerState} (one_ready : Ready one)
    (other_ready : Ready other)
    (less : one.averageIntensity.toNat < other.averageIntensity.toNat) :
    ∃ frame, (exec one frame).map normalizedImage ≠ (exec other frame).map normalizedImage := by
  have hbounded := other_ready.small
  have hsize := grayscaleImageSize_eq
  have hlt : other.averageIntensity.toNat < grayscaleImageSize + 1 := by omega
  obtain ⟨count, hcount⟩ : ∃ count : Fin (grayscaleImageSize + 1),
      (count : ℕ) = other.averageIntensity.toNat := ⟨⟨other.averageIntensity.toNat, hlt⟩, rfl⟩
  refine ⟨edgeFrame count, fun same => ?_⟩
  have hfails : exec one (edgeFrame count) = none :=
    exec_edgeFrame_of_lt one_ready (by omega) (by omega)
  have hcompletes : (exec other (edgeFrame count)).isSome :=
    exec_edgeFrame_of_eq other_ready hcount.symm (by omega)
  rw [hfails, Option.map_none, eq_comm, Option.map_eq_none_iff] at same
  rw [same] at hcompletes
  exact absurd hcompletes (by decide)

/-- **What a call depends on.** Behind two histories a frame has the same outcome if its mean
is the same behind both, and every frame has if and only if both carry the same average over. -/
theorem outcome_eq_iff (one other : CompletedHistory) :
    (∀ frame, one.meanOf frame = other.meanOf frame →
      (exec one.state frame).map normalizedImage = (exec other.state frame).map normalizedImage) ∧
    ((∀ frame,
        (exec one.state frame).map normalizedImage =
          (exec other.state frame).map normalizedImage) ↔
      one.state.averageIntensity = other.state.averageIntensity) := by
  have hmean : ∀ frame, one.meanOf frame = other.meanOf frame →
      (exec one.state frame).map normalizedImage =
        (exec other.state frame).map normalizedImage := by
    intro frame same
    rw [exec_eq_normalizeWith one.ready, exec_eq_normalizeWith other.ready,
      average_congr one.ready.small other.ready.small same]
  refine ⟨hmean, fun same => ?_, fun same frame =>
    hmean frame (congrArg (mean · (grayscale frame)) same)⟩
  rw [← UInt32.toNat_inj]
  rcases Nat.lt_trichotomy one.state.averageIntensity.toNat other.state.averageIntensity.toNat
    with hless | hequal | hmore
  · obtain ⟨frame, hframe⟩ := exists_outcome_ne one.ready other.ready hless
    exact absurd (same frame) hframe
  · exact hequal
  · obtain ⟨frame, hframe⟩ := exists_outcome_ne other.ready one.ready hmore
    exact absurd (same frame).symm hframe

/-- Behind one frame, and in a new process, a frame has different outcomes. -/
theorem outcome_depends_on_history :
    ∃ state, [halves].foldlM exec init = some state ∧
      (exec state (edgeFrame ⟨101, by decide⟩)).map normalizedImage ≠
        (exec init (edgeFrame ⟨101, by decide⟩)).map normalizedImage := by
  have hhalves : [halves].foldlM exec init = some halvesCall.after := by
    rw [List.foldlM_cons, exec_halves]
    rfl
  have hready : Ready halvesCall.after := ready_of_foldlM ready_init hhalves
  have hfails : exec init (edgeFrame ⟨101, by decide⟩) = none :=
    exec_edgeFrame_of_lt ready_init (by decide) (by decide)
  have hcompletes : (exec halvesCall.after (edgeFrame ⟨101, by decide⟩)).isSome :=
    exec_edgeFrame_of_eq hready rfl (by decide)
  refine ⟨halvesCall.after, hhalves, fun same => ?_⟩
  rw [hfails, Option.map_none, Option.map_eq_none_iff] at same
  rw [same] at hcompletes
  exact absurd hcompletes (by decide)

end Carried

end NormalizerState

end PiVision
