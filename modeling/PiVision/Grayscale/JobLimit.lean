import Mathlib.Algebra.Group.Nat.Defs
import Mathlib.Data.List.Perm.Subperm
import PiVision.Lib.Run

/-!
# The number of grayscale jobs

`PiVisionGrayscaleImage` takes a colour frame if `numJobsOngoing` is below its limit. It
dispatches the job first and raises the counter then, while the completion of a job lowers it
in another thread. A job that is complete before its own frame has been counted takes the
counter below zero, where it wraps around; frames that are handled at the same time may all
find the counter below the limit.

With one frame at a time the limit holds, whether or not the counter has wrapped around; and
the counter does not wrap around if, besides, each completion is handled behind the increment
of its own frame. The frames are numbered as they come, and a job and its completion go by the
number of their frame. The source has no such numbers.
-/

namespace PiVision

open Machine

/-- `NUM_JOBS_LIMIT`. -/
def numJobsLimit : UInt32 := 4

/-- `numJobsOngoing`, the frames that have come, those whose handler has found the counter below
the limit, those whose handler has dispatched their job as well, the jobs that have not been
executed, and the completion events that have not been handled. -/
structure JobCounter where
  numJobsOngoing : UInt32
  frames : ℕ
  admitted : List ℕ
  dispatched : List ℕ
  jobs : List ℕ
  completions : List ℕ
  deriving DecidableEq, Repr

/-- The steps of `HandleEvent` for a frame and for a completion, and the execution of a job. -/
inductive JobAction
  | frame
  | dispatch (frame : ℕ)
  | increment (frame : ℕ)
  | execute (frame : ℕ)
  | complete (frame : ℕ)
  deriving DecidableEq, Repr

namespace JobCounter

def start : JobCounter := ⟨0, 0, [], [], [], []⟩

/-- A step. There is none for a frame that is not at that point. -/
def step (s : JobCounter) : JobAction → JobCounter
  | .frame =>
    if numJobsLimit > s.numJobsOngoing then
      { s with frames := s.frames + 1, admitted := s.frames :: s.admitted }
    else { s with frames := s.frames + 1 }
  | .dispatch frame =>
    if frame ∈ s.admitted then
      { s with
        admitted := s.admitted.erase frame
        dispatched := frame :: s.dispatched
        jobs := frame :: s.jobs }
    else s
  | .increment frame =>
    if frame ∈ s.dispatched then
      { s with
        dispatched := s.dispatched.erase frame
        numJobsOngoing := s.numJobsOngoing + 1 }
    else s
  -- the job raises its completion event at the end
  | .execute frame =>
    if frame ∈ s.jobs then
      { s with jobs := s.jobs.erase frame, completions := frame :: s.completions }
    else s
  | .complete frame =>
    if frame ∈ s.completions then
      { s with
        completions := s.completions.erase frame
        numJobsOngoing := s.numJobsOngoing - 1 }
    else s

/-- The jobs dispatched and not yet completed. -/
def outstanding (s : JobCounter) : ℕ := s.jobs.length + s.completions.length

/-- The handlers of frames that are between the check and the end. -/
def handlers (s : JobCounter) : ℕ := s.admitted.length + s.dispatched.length

/-- No more jobs are outstanding than the limit allows. -/
def Limited (s : JobCounter) : Prop := s.outstanding ≤ numJobsLimit.toNat

/-- The counter does not wrap below zero, and the limit holds behind the step. -/
structure Lawful (s : JobCounter) (action : JobAction) : Prop where
  no_wrap : ∀ frame, action = .complete frame → frame ∈ s.completions → s.numJobsOngoing ≠ 0
  limited : (s.step action).Limited

/-- A frame is handled when the handlers of the earlier ones have come to their end. -/
def OneAtATime (s : JobCounter) : JobAction → Prop
  | .frame => s.handlers = 0
  | _ => True

/-- A completion is handled when the handler of its frame does not have to count it any more. -/
def Behind (s : JobCounter) : JobAction → Prop
  | .complete frame => frame ∉ s.dispatched
  | _ => True

/-- Frames are handled one at a time, and completions behind the increment of their frame. -/
def InOrder (s : JobCounter) (action : JobAction) : Prop :=
  s.OneAtATime action ∧ s.Behind action

instance (s : JobCounter) (action : JobAction) : Decidable (s.OneAtATime action) :=
  match action with
  | .frame => inferInstanceAs (Decidable (_ = _))
  | .dispatch _ | .increment _ | .execute _ | .complete _ => .isTrue trivial

instance (s : JobCounter) (action : JobAction) : Decidable (s.Behind action) :=
  match action with
  | .complete _ => inferInstanceAs (Decidable (¬_))
  | .frame | .dispatch _ | .increment _ | .execute _ => .isTrue trivial

instance (s : JobCounter) (action : JobAction) : Decidable (s.InOrder action) :=
  inferInstanceAs (Decidable (_ ∧ _))

/-! ## What the counter says -/

/-- There is one handler at most, and room for the job of a frame that has been admitted. -/
structure Sequential (s : JobCounter) : Prop where
  one : s.handlers ≤ 1
  room : s.outstanding + s.admitted.length ≤ numJobsLimit.toNat

/-- The counter, with the jobs that are to be counted, gives the jobs outstanding as a
`uint32_t`. -/
def Congruent (s : JobCounter) : Prop :=
  (s.numJobsOngoing.toNat + s.dispatched.length) % 2 ^ 32 = s.outstanding % 2 ^ 32

/-- The jobs that are to be counted are outstanding. -/
def Uncounted (s : JobCounter) : Prop := s.dispatched.Subperm (s.jobs ++ s.completions)

section Steps

variable {s : JobCounter} {action : JobAction}

theorem sequential_start : start.Sequential := ⟨Nat.zero_le _, Nat.zero_le _⟩

theorem congruent_start : start.Congruent := rfl

theorem uncounted_start : start.Uncounted := List.Subperm.refl []

theorem congruent_step (s : JobCounter) (action : JobAction) (congruent : s.Congruent) :
    (s.step action).Congruent := by
  unfold Congruent outstanding at *
  cases action with
  | frame =>
    simp only [step]
    split <;> exact congruent
  | dispatch frame =>
    simp only [step]
    split
    · simp only [List.length_cons]
      omega
    · exact congruent
  | increment frame =>
    simp only [step]
    split
    · rename_i hmem
      have hlength := List.length_erase_add_one hmem
      have hone : (s.numJobsOngoing + 1).toNat = (s.numJobsOngoing.toNat + 1) % 2 ^ 32 :=
        UInt32.toNat_add _ _
      simp only [hone]
      omega
    · exact congruent
  | execute frame =>
    simp only [step]
    split
    · rename_i hmem
      have hlength := List.length_erase_add_one hmem
      simp only [List.length_cons]
      omega
    · exact congruent
  | complete frame =>
    simp only [step]
    split
    · rename_i hmem
      have hlength := List.length_erase_add_one hmem
      have hone : (s.numJobsOngoing - 1).toNat = (2 ^ 32 - 1 + s.numJobsOngoing.toNat) % 2 ^ 32 :=
        UInt32.toNat_sub _ _
      simp only [hone]
      omega
    · exact congruent

/-- **One step** with one frame at a time: the limit holds, whether or not the counter has
wrapped around. -/
theorem Sequential.step (sequential : s.Sequential) (congruent : s.Congruent)
    (one : s.OneAtATime action) : (s.step action).Sequential := by
  obtain ⟨hone, hroom⟩ := sequential
  have hfour : numJobsLimit.toNat = 4 := rfl
  unfold Congruent at congruent
  unfold handlers at hone
  unfold outstanding at hroom congruent
  cases action with
  | frame =>
    have hhandlers : s.admitted.length + s.dispatched.length = 0 := one
    simp only [JobCounter.step]
    split
    · rename_i hbelow
      -- nothing is to be counted, so that the counter is the number of the jobs outstanding
      have hless : s.numJobsOngoing.toNat < numJobsLimit.toNat := UInt32.lt_iff_toNat_lt.mp hbelow
      refine ⟨?_, ?_⟩ <;> simp only [handlers, outstanding, List.length_cons] <;> omega
    · exact ⟨hone, hroom⟩
  | dispatch frame | increment frame | execute frame | complete frame =>
    simp only [JobCounter.step]
    split
    · rename_i hmem
      have hlength := List.length_erase_add_one hmem
      refine ⟨?_, ?_⟩ <;> simp only [handlers, outstanding, List.length_cons] <;> omega
    · exact ⟨hone, hroom⟩

theorem Sequential.limited (sequential : s.Sequential) : s.Limited :=
  Nat.le_trans (Nat.le_add_right _ _) sequential.room

/-- A job stays outstanding until its completion is handled. -/
theorem Uncounted.step (uncounted : s.Uncounted) (behind : s.Behind action) :
    (s.step action).Uncounted := by
  unfold Uncounted at uncounted ⊢
  cases action with
  | frame =>
    simp only [JobCounter.step]
    split <;> exact uncounted
  | dispatch frame =>
    simp only [JobCounter.step]
    split
    · exact (List.subperm_cons frame).mpr uncounted
    · exact uncounted
  | increment frame =>
    simp only [JobCounter.step]
    split
    · exact (List.erase_subperm frame s.dispatched).trans uncounted
    · exact uncounted
  | execute frame =>
    simp only [JobCounter.step]
    split
    · rename_i hmem
      -- the job becomes a completion
      have hperm : (s.jobs.erase frame ++ frame :: s.completions).Perm (s.jobs ++ s.completions) :=
        List.perm_middle.trans ((List.perm_cons_erase hmem).symm.append_right _)
      exact uncounted.trans hperm.symm.subperm
    · exact uncounted
  | complete frame =>
    simp only [JobCounter.step]
    split
    · rename_i hmem
      have hperm : (s.jobs ++ s.completions).Perm
          (frame :: (s.jobs ++ s.completions.erase frame)) :=
        ((List.perm_cons_erase hmem).append_left _).trans List.perm_middle
      have herase := (uncounted.trans hperm.subperm).erase frame
      rwa [List.erase_of_not_mem behind, List.erase_cons_head] at herase
    · exact uncounted

/-- While a completion waits whose job has been counted, more jobs are outstanding than there
are to be counted. -/
theorem dispatched_lt_outstanding (uncounted : s.Uncounted) {frame : ℕ}
    (ready : frame ∈ s.completions) (counted : frame ∉ s.dispatched) :
    s.dispatched.length < s.outstanding := by
  have hsubperm : (frame :: s.dispatched).Subperm (s.jobs ++ s.completions) :=
    List.cons_subperm_of_not_mem_of_mem counted (List.mem_append_right _ ready) uncounted
  have hlength := hsubperm.length_le
  rwa [List.length_cons, List.length_append] at hlength

/-- **One step** in order is lawful. -/
theorem lawful_of_inOrder (sequential : s.Sequential) (congruent : s.Congruent)
    (uncounted : s.Uncounted) (inOrder : s.InOrder action) : s.Lawful action := by
  obtain ⟨hone, hbehind⟩ := inOrder
  constructor
  · rintro frame rfl hready hzero
    have hless := dispatched_lt_outstanding uncounted hready hbehind
    have hroom := sequential.room
    have hfour : numJobsLimit.toNat = 4 := rfl
    have hcounter : s.numJobsOngoing.toNat = 0 := by rw [hzero]; rfl
    rw [Congruent] at congruent
    omega
  · exact (sequential.step congruent hone).limited

/-- **The job limit holds** behind every step of a run that handles frames one at a time,
whatever becomes of the counter; and the counter does not wrap around in a run that handles
completions behind the increment of their frames, besides. -/
theorem jobLimit_run (actions : List JobAction) :
    (Along JobCounter.step OneAtATime start actions →
        Along JobCounter.step (fun s action => (s.step action).Limited) start actions) ∧
      (Along JobCounter.step InOrder start actions →
        Along JobCounter.step Lawful start actions) := by
  constructor
  · exact along_imp_of_invariant
      (fun s action (inv : s.Sequential ∧ s.Congruent) one =>
        ⟨inv.1.step inv.2 one, congruent_step s action inv.2⟩)
      (fun s action inv one => (inv.1.step inv.2 one).limited)
      ⟨sequential_start, congruent_start⟩
  · exact along_imp_of_invariant
      (fun s action (inv : s.Sequential ∧ s.Congruent ∧ s.Uncounted) inOrder =>
        ⟨inv.1.step inv.2.1 inOrder.1, congruent_step s action inv.2.1,
          inv.2.2.step inOrder.2⟩)
      (fun s action inv => lawful_of_inOrder inv.1 inv.2.1 inv.2.2)
      ⟨sequential_start, congruent_start, uncounted_start⟩

/-- The second frame is checked while the job of the first one has been executed and its
completion has not been handled. -/
theorem jobLimit_twoFrames :
    let actions : List JobAction := [.frame, .dispatch 0, .execute 0, .increment 0, .frame,
      .dispatch 1, .complete 0, .increment 1, .execute 1, .complete 1]
    Along JobCounter.step (fun s action => (s.step action).Limited) start actions ∧
      Along JobCounter.step Lawful start actions :=
  ⟨(jobLimit_run _).1 (by decide), (jobLimit_run _).2 (by decide)⟩

/-- A job is complete before its frame has been counted; and five frames find the counter below
the limit before any of them has been counted. -/
theorem not_lawful :
    ¬Along JobCounter.step Lawful start
        [.frame, .dispatch 0, .execute 0, .complete 0] ∧
      ¬(run JobCounter.step start ((.replicate 5 .frame) ++
        [.dispatch 0, .dispatch 1, .dispatch 2, .dispatch 3, .dispatch 4])).Limited := by
  refine ⟨?_, by unfold Limited; decide⟩
  rintro ⟨-, -, -, hlawful, -⟩
  exact hlawful.no_wrap 0 rfl (by decide) (by decide)

end Steps

end JobCounter

end PiVision
