import PiVision.Clients.DrawPanel

/-!
# Torn pictures

`paintComponent` evaluates `imageData` for its `synchronized` block, and waits if `drawImage`
holds that object. When it gets the object the field refers to the next one, on which the
following call of `drawImage` synchronizes: nothing keeps that call out, and the loop takes the
rest of its bytes from another image.
-/

namespace PiVision

open Machine

namespace GuiDrawPanel

/-- There is a way on in which the call that is under way takes bytes from two images. -/
def CanTear (s : GuiDrawPanel) : Prop :=
  ∃ actions paint, (run step s actions).paints = s.paints ++ [paint] ∧ paint.Torn

/-- The call is under way and fresh, or has left its loop, having painted one image. -/
structure Untorn (before : List Paint) (s : GuiDrawPanel) : Prop where
  sync : s.Synchronized
  cases : (s.paints = before ∧ ∃ p tested, s.painter = .painting p tested ∧ p.fresh = true) ∨
    ∃ paint more, s.paints = before ++ paint :: more ∧ ¬paint.Torn

section Torn

variable {s : GuiDrawPanel} {before : List Paint}

/-- A step of the loop, or behind it. -/
theorem painterStep_painting {p : Painting} {tested : Bool}
    (hpainter : s.painter = .painting p tested) :
    (∃ p' tested', s.painterStep = { s with painter := .painting p' tested' } ∧
      p'.fresh = p.fresh) ∨ ∃ threw, s.painterStep = s.finish p threw := by
  rw [painterStep, hpainter]
  cases tested with
  | false =>
    dsimp only
    split
    · exact .inl ⟨p, true, rfl, rfl⟩
    · exact .inr ⟨false, rfl⟩
  | true =>
    dsimp only
    split
    · exact .inl ⟨_, false, rfl, rfl⟩
    · exact .inr ⟨true, rfl⟩

/-- No step takes a call of `paintComponent` back. -/
theorem exists_paints_step (s : GuiDrawPanel) (action : PanelAction) :
    ∃ more, (s.step action).paints = s.paints ++ more := by
  cases action with
  | drawImage imageData =>
    refine ⟨[], ?_⟩
    rw [step, drawImage, List.append_nil]
    split <;> rfl
  | drawer =>
    refine ⟨[], ?_⟩
    rw [step, drawerStep, List.append_nil]
    split <;> (try split) <;> rfl
  | paintComponent =>
    refine ⟨[], ?_⟩
    rw [step, paintComponent, List.append_nil]
    split <;> rfl
  | painter =>
    rw [step]
    cases hpainter : s.painter with
    | idle => exact ⟨[], by rw [painterStep, hpainter, List.append_nil]⟩
    | entering monitor =>
      refine ⟨[], ?_⟩
      rw [painterStep, hpainter, List.append_nil]
      dsimp only
      split <;> rfl
    | painting p tested =>
      rcases painterStep_painting hpainter with ⟨p', tested', hstep, -⟩ | ⟨threw, hstep⟩
      · exact ⟨[], by rw [hstep, List.append_nil]⟩
      · exact ⟨[⟨p, threw⟩], by rw [hstep]; rfl⟩

theorem painter_step_of_painting {p : Painting} {tested : Bool} {action : PanelAction}
    (hpainter : s.painter = .painting p tested) (other : action ≠ .painter) :
    (s.step action).painter = .painting p tested ∧ (s.step action).paints = s.paints := by
  cases action with
  | drawImage imageData =>
    rw [step, drawImage]
    split <;> exact ⟨hpainter, rfl⟩
  | drawer =>
    rw [step, drawerStep]
    split <;> (try split) <;> exact ⟨hpainter, rfl⟩
  | paintComponent =>
    rw [step, paintComponent, hpainter]
    exact ⟨hpainter, rfl⟩
  | painter => exact absurd rfl other

theorem untorn_step (s : GuiDrawPanel) (action : PanelAction) (untorn : s.Untorn before) :
    (s.step action).Untorn before := by
  refine ⟨synchronized_step s action untorn.sync, ?_⟩
  rcases untorn.cases with ⟨hpaints, p, tested, hpainter, hfresh⟩ | ⟨paint, more, hpaints, htorn⟩
  · by_cases hother : action = .painter
    · rw [hother, step]
      rcases painterStep_painting hpainter with ⟨p', tested', hstep, hsame⟩ | ⟨threw, hstep⟩
      · rw [hstep]
        exact .inl ⟨hpaints, p', tested', rfl, hsame.trans hfresh⟩
      · have hfits := untorn.sync.painter
        rw [hpainter] at hfits
        have hsources := hfits.sources hfresh
        refine .inr ⟨⟨p, threw⟩, [], ?_, ?_⟩
        · rw [hstep, finish, hpaints]
        · rintro ⟨i, hi, j, hj, hne⟩
          exact hne ((hsources i hi).trans (hsources j hj).symm)
    · obtain ⟨hstate, hsame⟩ := painter_step_of_painting hpainter hother
      exact .inl ⟨hsame.trans hpaints, p, tested, hstate, hfresh⟩
  · obtain ⟨new, hnew⟩ := exists_paints_step s action
    exact .inr ⟨paint, more ++ new, by rw [hnew, hpaints, List.append_assoc]; rfl, htorn⟩

/-- A fresh call paints one image. -/
theorem not_canTear_of_fresh (sync : s.Synchronized) {p : Painting} {tested : Bool}
    (hpainter : s.painter = .painting p tested) (fresh : p.fresh = true) : ¬s.CanTear := by
  rintro ⟨actions, paint, hpaints, htorn⟩
  have huntorn : s.Untorn s.paints := ⟨sync, .inl ⟨rfl, p, tested, hpainter, fresh⟩⟩
  rcases (run_invariant step untorn_step huntorn actions).cases with
    ⟨hsame, -⟩ | ⟨paint', more, hmore, hwhole⟩
  · rw [hpaints] at hsame
    simp at hsame
  · rw [hpaints] at hmore
    have hhead := List.append_cancel_left hmore
    rw [List.cons.inj hhead |>.1] at htorn
    exact hwhole htorn

/-- An image is handed over while `paintComponent` holds another object. -/
def replace (s : GuiDrawPanel) (imageData : List UInt8) : GuiDrawPanel :=
  { s with arrays := s.arrays ++ [imageData], imageData := s.arrays.length }

theorem run_replace (idle : s.drawer = .idle) (free : s.painter.holds ≠ some s.imageData)
    (imageData : List UInt8) :
    run step s [.drawImage imageData, .drawer, .drawer, .drawer] = s.replace imageData := by
  simp only [run_cons, run_nil, step, drawImage, drawerStep, idle, if_neg free, replace]

theorem array_replace (s : GuiDrawPanel) (imageData : List UInt8) :
    (s.replace imageData).array (s.replace imageData).imageData = imageData := by
  simp [replace, array]

/-- The call of `drawImage` that is under way can return. -/
theorem exists_idle (sync : s.Synchronized) {p : Painting} {tested : Bool}
    (hpainter : s.painter = .painting p tested) (stale : p.monitor < s.imageData) :
    ∃ actions, (run step s actions).drawer = .idle ∧
      (run step s actions).painter = .painting p tested ∧
      (run step s actions).paints = s.paints ∧ p.monitor < (run step s actions).imageData := by
  have hfits := sync.drawer
  cases hdrawer : s.drawer with
  | idle => exact ⟨[], hdrawer, hpainter, rfl, stale⟩
  | leaving monitor =>
    refine ⟨[.drawer], ?_⟩
    simp only [run_cons, run_nil, step, drawerStep, hdrawer]
    exact ⟨trivial, hpainter, trivial, stale⟩
  | assigning monitor imageData =>
    rw [hdrawer] at hfits
    refine ⟨[.drawer, .drawer], ?_⟩
    simp only [run_cons, run_nil, step, drawerStep, hdrawer]
    exact ⟨trivial, hpainter, trivial, Nat.lt_trans stale hfits.2.1⟩
  | entering monitor imageData =>
    rw [hdrawer] at hfits
    have hfree : s.painter.holds ≠ some monitor := by
      rw [hpainter, hfits.1]
      exact fun heq => Nat.ne_of_lt stale (Option.some.inj heq)
    refine ⟨[.drawer, .drawer, .drawer], ?_⟩
    simp only [run_cons, run_nil, step, drawerStep, hdrawer, if_neg hfree]
    exact ⟨trivial, hpainter, trivial, Nat.lt_trans stale hfits.2.1⟩

theorem painterStep_of_tested {p : Painting} {byte : UInt8}
    (hpainter : s.painter = .painting p true)
    (hbyte : (s.array s.imageData)[p.byteIndex]? = some byte) :
    s.painterStep = { s with painter := .painting (p.draw s.width s.imageData byte) false } := by
  rw [painterStep, hpainter]
  dsimp only
  rw [hbyte]

/-- The loop takes a byte of the object that the field refers to. -/
theorem exists_drawn {p : Painting} {tested : Bool} (hpainter : s.painter = .painting p tested)
    (more : p.byteIndex < (s.array s.imageData).length) :
    ∃ actions byte, run step s actions =
      { s with painter := .painting (p.draw s.width s.imageData byte) false } := by
  have hbyte := List.getElem?_eq_getElem more
  cases tested with
  | false =>
    have htest : s.painterStep = { s with painter := .painting p true } := by
      rw [painterStep, hpainter]
      exact if_pos more
    refine ⟨[.painter, .painter], (s.array s.imageData)[p.byteIndex], ?_⟩
    rw [run_cons, step, htest]
    exact painterStep_of_tested (s := { s with painter := .painting p true }) rfl hbyte
  | true => exact ⟨[.painter], _, painterStep_of_tested hpainter hbyte⟩

/-- An image is handed over, and the loop takes a byte of it. -/
theorem exists_replaced {p : Painting} {tested : Bool} (hpainter : s.painter = .painting p tested)
    (idle : s.drawer = .idle) (stale : p.monitor < s.imageData) {image : List UInt8}
    (more : p.byteIndex < image.length) :
    ∃ actions byte,
      (run step s actions).painter = .painting (p.draw s.width s.arrays.length byte) false ∧
      (run step s actions).drawer = .idle ∧ (run step s actions).imageData = s.arrays.length ∧
      (run step s actions).arrays = s.arrays ++ [image] ∧
      (run step s actions).paints = s.paints := by
  have hfree : s.painter.holds ≠ some s.imageData := by
    rw [hpainter]
    exact fun heq => Nat.ne_of_lt stale (Option.some.inj heq)
  have hlonger : p.byteIndex < ((s.replace image).array (s.replace image).imageData).length := by
    rwa [array_replace]
  obtain ⟨draws, byte, hdraws⟩ := exists_drawn (s := s.replace image) hpainter hlonger
  refine ⟨[.drawImage image, .drawer, .drawer, .drawer] ++ draws, byte, ?_⟩
  rw [run_append, run_replace idle hfree image, hdraws]
  exact ⟨rfl, idle, rfl, rfl, rfl⟩

/-- A call that is not fresh can be given two images. -/
theorem canTear_of_stale (sync : s.Synchronized) {p : Painting} {tested : Bool}
    (hpainter : s.painter = .painting p tested) (stale : p.monitor < s.imageData) :
    s.CanTear := by
  obtain ⟨returns, hidle, hpainter₁, hpaints₁, hstale⟩ := exists_idle sync hpainter stale
  have hcurrent := (run_invariant step synchronized_step sync returns).current
  generalize hs₁ : run step s returns = s₁ at *
  -- both images have just two more bytes than the loop has drawn so far
  obtain ⟨image, hlength⟩ : ∃ image : List UInt8, image.length = p.byteIndex + 2 :=
    ⟨.replicate _ 0, List.length_replicate⟩
  have hfirst : p.byteIndex < image.length := by omega
  obtain ⟨first, byte₁, hpainter₂, hidle₂, hfield₂, harrays₂, hpaints₂⟩ :=
    exists_replaced hpainter₁ hidle hstale hfirst
  generalize hs₂ : run step s₁ first = s₂ at *
  have hstale₂ : p.monitor < s₂.imageData := by
    rw [hfield₂]
    exact Nat.lt_trans hstale hcurrent
  have hsecond : p.byteIndex + 1 < image.length := by omega
  obtain ⟨second, byte₂, hpainter₃, -, hfield₃, harrays₃, hpaints₃⟩ :=
    exists_replaced hpainter₂ hidle₂ hstale₂ hsecond
  generalize hs₃ : run step s₂ second = s₃ at *
  have harray : s₃.array s₃.imageData = image := by
    rw [array, hfield₃, harrays₃]
    simp
  have hend : ¬p.byteIndex + 1 + 1 < (s₃.array s₃.imageData).length := by
    rw [harray]
    omega
  let painting := (p.draw s₁.width s₁.arrays.length byte₁).draw s₂.width s₂.arrays.length byte₂
  have hfinish : s₃.painterStep = s₃.finish painting false := by
    rw [painterStep, hpainter₃]
    exact if_neg hend
  refine ⟨returns ++ first ++ second ++ [.painter], ⟨painting, false⟩, ?_, ?_⟩
  · rw [run_append, run_append, run_append, hs₁, hs₂, hs₃, run_cons, run_nil, step, hfinish,
      finish, hpaints₃, hpaints₂, hpaints₁]
  · refine ⟨s₁.arrays.length, ?_, s₂.arrays.length, ?_, ?_⟩
    · exact List.mem_append_left _ (List.mem_append_right _ (List.mem_singleton_self _))
    · exact List.mem_append_right _ (List.mem_singleton_self _)
    · rw [harrays₂, List.length_append]
      exact Nat.ne_of_lt (Nat.lt_succ_self _)

/-- **A picture can be torn** in just those calls of `paintComponent` for which `imageData`
refers to another object than the one that the call is synchronized on. -/
theorem canTear_iff_stale (width height : ℕ) (actions : List PanelAction) {p : Painting}
    {tested : Bool}
    (loop : (run step (new width height) actions).painter = .painting p tested) :
    (run step (new width height) actions).CanTear ↔
      (run step (new width height) actions).imageData ≠ p.monitor := by
  have sync := synchronized_run width height actions
  have hfits := sync.painter
  rw [loop] at hfits
  constructor
  · intro htears heq
    cases hfresh : p.fresh with
    | false => exact absurd heq.symm (Nat.ne_of_lt (hfits.stale hfresh))
    | true => exact not_canTear_of_fresh sync loop hfresh htears
  · intro hne
    cases hfresh : p.fresh with
    | false => exact canTear_of_stale sync loop (hfits.stale hfresh)
    | true => exact absurd (hfits.fresh hfresh).symm hne

/-- `paintComponent` waits while the first image is handed over. -/
def waited : List PanelAction :=
  [.drawImage [7, 9], .drawer, .paintComponent, .drawer, .drawer, .painter]

/-- The first picture of a window can be torn. -/
theorem canTear_waited : (run step (new 640 480) waited).CanTear := by
  have hloop : (run step (new 640 480) waited).painter =
      .painting ⟨0, false, 0, ⟨0, 0⟩, [], []⟩ false := rfl
  exact (canTear_iff_stale 640 480 waited hloop).mpr (by decide)

end Torn

end GuiDrawPanel

end PiVision
