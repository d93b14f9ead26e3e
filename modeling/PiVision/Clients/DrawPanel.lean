import PiVision.Lib.Raster
import PiVision.Lib.Run

/-!
# The panel of the Java client

The client's thread hands each image to `drawImage`, the thread of the window paints whenever it
is told to. Both synchronize on the object that `imageData` refers to, and `drawImage` makes it
refer to another one: who waits for the old object holds it when it has become the wrong one.
The loop of `paintComponent` reads the field twice a round, for the length and for the byte.

Objects are numbered in the order of their creation. Each read and each assignment of the field,
and each entry to and exit from a `synchronized` block, is a step. The three lines of text above
the picture are left out.
-/

namespace PiVision

open Machine

/-- A call of `paintComponent` in its loop: the object it has synchronized on, whether
`imageData` was that object then, the loop's variables, what has been drawn, and the objects
that the bytes have been taken from. -/
structure Painting where
  monitor : ℕ
  fresh : Bool
  byteIndex : ℕ
  point : Point
  drawn : List (Point × UInt8)
  sources : List ℕ
  deriving DecidableEq, Repr

/-- The body of the loop, with the byte that it has read from an object. -/
def Painting.draw (p : Painting) (width source : ℕ) (byte : UInt8) : Painting :=
  { p with
    byteIndex := p.byteIndex + 1
    point := Raster.next width p.point
    drawn := p.drawn ++ [(p.point, byte)]
    sources := p.sources ++ [source] }

/-- The thread of the window: outside of `paintComponent`, in front of its `synchronized` block,
or in its loop, where the condition has been tested or not. -/
inductive Painter
  | idle
  | entering (monitor : ℕ)
  | painting (painting : Painting) (tested : Bool)
  deriving DecidableEq, Repr

/-- The client's thread: outside of `drawImage`, in front of its `synchronized` block, in front
of the assignment or behind it. -/
inductive Drawer
  | idle
  | entering (monitor imageData : ℕ)
  | assigning (monitor imageData : ℕ)
  | leaving (monitor : ℕ)
  deriving DecidableEq, Repr

/-- The object that the thread is synchronized on. -/
def Painter.holds : Painter → Option ℕ
  | painting p _ => some p.monitor
  | _ => none

def Drawer.holds : Drawer → Option ℕ
  | assigning monitor _ | leaving monitor => some monitor
  | _ => none

/-- A call of `paintComponent` that has left its loop, by an `ArrayIndexOutOfBoundsException` or
not. -/
structure Paint where
  painting : Painting
  threw : Bool
  deriving DecidableEq, Repr

/-- It has taken bytes from two images. -/
def Paint.Torn (paint : Paint) : Prop :=
  ∃ i ∈ paint.painting.sources, ∃ j ∈ paint.painting.sources, i ≠ j

/-- `GuiDrawPanel`: the objects that there are, the one that `imageData` refers to, the two
threads, and the calls of `paintComponent` so far. -/
structure GuiDrawPanel where
  width : ℕ
  arrays : List (List UInt8)
  imageData : ℕ
  drawer : Drawer
  painter : Painter
  paints : List Paint
  deriving DecidableEq, Repr

/-- A call of `drawImage` or `paintComponent` begins, or the thread in it goes on. -/
inductive PanelAction
  | drawImage (imageData : List UInt8)
  | drawer
  | paintComponent
  | painter
  deriving DecidableEq, Repr

namespace GuiDrawPanel

/-- The constructor. -/
def new (width height : ℕ) : GuiDrawPanel where
  width := width
  arrays := [.replicate (width * height) 0]
  imageData := 0
  drawer := .idle
  painter := .idle
  paints := []

/-- What the object with this number holds. -/
def array (s : GuiDrawPanel) (k : ℕ) : List UInt8 := s.arrays.getD k []

/-- `drawImage` is called: its argument is a new object. -/
def drawImage (s : GuiDrawPanel) (imageData : List UInt8) : GuiDrawPanel :=
  match s.drawer with
  | .idle =>
    { s with
      arrays := s.arrays ++ [imageData]
      drawer := .entering s.imageData s.arrays.length }
  | _ => s

/-- `drawImage` goes on. -/
def drawerStep (s : GuiDrawPanel) : GuiDrawPanel :=
  match s.drawer with
  | .idle => s
  | .entering monitor imageData =>
    if s.painter.holds = some monitor then s
    else { s with drawer := .assigning monitor imageData }
  | .assigning monitor imageData => { s with imageData := imageData, drawer := .leaving monitor }
  | .leaving _ => { s with drawer := .idle }

/-- `paintComponent` is called. -/
def paintComponent (s : GuiDrawPanel) : GuiDrawPanel :=
  match s.painter with
  | .idle => { s with painter := .entering s.imageData }
  | _ => s

/-- The loop is left. -/
def finish (s : GuiDrawPanel) (p : Painting) (threw : Bool) : GuiDrawPanel :=
  { s with painter := .idle, paints := s.paints ++ [⟨p, threw⟩] }

/-- `paintComponent` goes on. -/
def painterStep (s : GuiDrawPanel) : GuiDrawPanel :=
  match s.painter with
  | .idle => s
  | .entering monitor =>
    if s.drawer.holds = some monitor then s
    else
      { s with
        painter := .painting ⟨monitor, s.imageData == monitor, 0, ⟨0, 0⟩, [], []⟩ false }
  | .painting p false =>
    if p.byteIndex < (s.array s.imageData).length then { s with painter := .painting p true }
    else s.finish p false
  | .painting p true =>
    match (s.array s.imageData)[p.byteIndex]? with
    | some byte => { s with painter := .painting (p.draw s.width s.imageData byte) false }
    -- the field refers to a shorter array by now
    | none => s.finish p true

/-- A step. -/
def step (s : GuiDrawPanel) : PanelAction → GuiDrawPanel
  | .drawImage imageData => s.drawImage imageData
  | .drawer => s.drawerStep
  | .paintComponent => s.paintComponent
  | .painter => s.painterStep

end GuiDrawPanel

/-! ## The threads -/

/-- Where `drawImage` is, it holds or waits for the object that the field refers to, until it
has replaced it by a newer one. -/
def Drawer.Fits (imageData objects : ℕ) : Drawer → Prop
  | idle => True
  | entering monitor data | assigning monitor data =>
    monitor = imageData ∧ imageData < data ∧ data < objects
  | leaving monitor => monitor < imageData

/-- What the bytes of a painting have been taken from: where the field has not changed, it does
not until the loop has been left. -/
structure Painting.Fits (p : Painting) (imageData : ℕ) : Prop where
  fresh : p.fresh = true → p.monitor = imageData
  stale : p.fresh = false → p.monitor < imageData
  sources : p.fresh = true → ∀ k ∈ p.sources, k = p.monitor
  length : p.sources.length = p.byteIndex

theorem Painting.fits_begin {monitor imageData : ℕ} (le : monitor ≤ imageData) :
    Painting.Fits ⟨monitor, imageData == monitor, 0, ⟨0, 0⟩, [], []⟩ imageData where
  fresh hfresh := (eq_of_beq hfresh).symm
  stale hstale := Nat.lt_of_le_of_ne le fun heq => ne_of_beq_false hstale heq.symm
  sources _ := List.forall_mem_nil _
  length := rfl

/-- Where `paintComponent` is, it holds or waits for an object that the field has referred to. -/
def Painter.Fits (imageData : ℕ) : Painter → Prop
  | idle => True
  | entering monitor => monitor ≤ imageData
  | painting p _ => p.Fits imageData

namespace GuiDrawPanel

/-- The threads and the field. -/
structure Synchronized (s : GuiDrawPanel) : Prop where
  current : s.imageData < s.arrays.length
  drawer : s.drawer.Fits s.imageData s.arrays.length
  painter : s.painter.Fits s.imageData
  exclusive : ∀ monitor, s.drawer.holds = some monitor → s.painter.holds ≠ some monitor

section Synchronized

variable {s : GuiDrawPanel}

theorem synchronized_new (width height : ℕ) : (new width height).Synchronized where
  current := Nat.one_pos
  drawer := trivial
  painter := trivial
  exclusive _ holds := by cases holds

theorem Synchronized.drawImage (sync : s.Synchronized) (imageData : List UInt8) :
    (s.drawImage imageData).Synchronized := by
  rw [GuiDrawPanel.drawImage]
  split
  · refine ⟨?_, ⟨rfl, sync.current, ?_⟩, sync.painter, fun _ holds => by cases holds⟩
    · rw [List.length_append]
      exact Nat.lt_add_right _ sync.current
    · simp
  · exact sync

theorem Synchronized.drawerStep (sync : s.Synchronized) : s.drawerStep.Synchronized := by
  have hfits := sync.drawer
  rw [GuiDrawPanel.drawerStep]
  cases hdrawer : s.drawer with
  | idle => exact sync
  | entering monitor imageData =>
    rw [hdrawer] at hfits
    dsimp only
    split
    · exact sync
    · rename_i hfree
      refine ⟨sync.current, hfits, sync.painter, fun m holds => ?_⟩
      obtain rfl := Option.some.inj holds
      exact hfree
  | assigning monitor imageData =>
    rw [hdrawer] at hfits
    obtain ⟨rfl, hnewer, hrange⟩ := hfits
    have hexclusive := sync.exclusive s.imageData (by rw [hdrawer]; rfl)
    refine ⟨hrange, hnewer, ?_, ?_⟩
    · have hpainter := sync.painter
      cases hstate : s.painter with
      | idle => trivial
      | entering monitor =>
        rw [hstate] at hpainter
        exact Nat.le_of_lt (Nat.lt_of_le_of_lt hpainter hnewer)
      | painting p tested =>
        rw [hstate] at hpainter hexclusive
        -- the loop is synchronized on an older object
        have hstale : p.fresh = true → False := fun hfresh =>
          hexclusive (congrArg some (hpainter.fresh hfresh))
        exact ⟨fun hfresh => absurd hfresh hstale,
          fun hfresh => Nat.lt_trans (hpainter.stale hfresh) hnewer, hpainter.sources,
          hpainter.length⟩
    · intro m holds
      obtain rfl := Option.some.inj holds
      exact hexclusive
  | leaving monitor => exact ⟨sync.current, trivial, sync.painter, fun _ holds => by cases holds⟩

theorem Synchronized.paintComponent (sync : s.Synchronized) :
    s.paintComponent.Synchronized := by
  rw [GuiDrawPanel.paintComponent]
  split
  · exact ⟨sync.current, sync.drawer, Nat.le_refl _, fun _ _ holds => by cases holds⟩
  · exact sync

theorem Synchronized.finish (sync : s.Synchronized) (p : Painting) (threw : Bool) :
    (s.finish p threw).Synchronized :=
  ⟨sync.current, sync.drawer, trivial, fun _ _ holds => by cases holds⟩

theorem Synchronized.painterStep (sync : s.Synchronized) : s.painterStep.Synchronized := by
  have hfits := sync.painter
  have hexclusive := sync.exclusive
  rw [GuiDrawPanel.painterStep]
  cases hpainter : s.painter with
  | idle => exact sync
  | entering monitor =>
    rw [hpainter] at hfits
    dsimp only
    split
    · exact sync
    · rename_i hfree
      refine ⟨sync.current, sync.drawer, Painting.fits_begin hfits, fun m holds hpainting => ?_⟩
      rw [← Option.some.inj hpainting] at holds
      exact hfree holds
  | painting p tested =>
    rw [hpainter] at hfits hexclusive
    cases tested with
    | false =>
      dsimp only
      split
      · exact ⟨sync.current, sync.drawer, hfits, hexclusive⟩
      · exact sync.finish p false
    | true =>
      dsimp only
      split
      · refine ⟨sync.current, sync.drawer, ?_, hexclusive⟩
        refine ⟨hfits.fresh, hfits.stale, fun hfresh k hk => ?_, ?_⟩
        · rcases List.mem_append.mp hk with hbefore | hnew
          · exact hfits.sources hfresh k hbefore
          · rw [List.mem_singleton.mp hnew]
            exact (hfits.fresh hfresh).symm
        · rw [Painting.draw, List.length_append, hfits.length]
          rfl
      · exact sync.finish p true

/-- **One step** of the two threads. -/
theorem synchronized_step (s : GuiDrawPanel) (action : PanelAction) (sync : s.Synchronized) :
    (s.step action).Synchronized := by
  cases action with
  | drawImage imageData => exact sync.drawImage imageData
  | drawer => exact sync.drawerStep
  | paintComponent => exact sync.paintComponent
  | painter => exact sync.painterStep

theorem synchronized_run (width height : ℕ) (actions : List PanelAction) :
    (run step (new width height) actions).Synchronized :=
  run_invariant step synchronized_step (synchronized_new width height) actions

end Synchronized

end GuiDrawPanel

/-! ## What is painted -/

/-- So far the painting is one of this image. -/
structure Painting.Of (p : Painting) (width : ℕ) (image : List UInt8) : Prop where
  within : p.byteIndex ≤ image.length
  point : p.point = Raster.pointAt width p.byteIndex
  drawn : p.drawn = Raster.scan width ⟨0, 0⟩ (image.take p.byteIndex)

namespace GuiDrawPanel

/-- Where the field has not changed while a call waited for its object, that object is what is
painted, all of it. -/
structure Whole (s : GuiDrawPanel) : Prop where
  sync : s.Synchronized
  painting : ∀ p tested, s.painter = .painting p tested → p.fresh = true →
    p.Of s.width (s.array p.monitor) ∧
      (tested = true → p.byteIndex < (s.array p.monitor).length)
  paints : ∀ paint ∈ s.paints, paint.painting.fresh = true →
    paint.threw = false ∧ ¬paint.Torn ∧ paint.painting.monitor < s.arrays.length ∧
      paint.painting.Of s.width (s.array paint.painting.monitor) ∧
      paint.painting.byteIndex = (s.array paint.painting.monitor).length

section Whole

variable {s : GuiDrawPanel}

theorem array_eq_of_append {arrays more : List (List UInt8)} {k : ℕ} (old : k < arrays.length) :
    (arrays ++ more).getD k [] = arrays.getD k [] := by
  rw [List.getD_eq_getElem?_getD, List.getElem?_append_left old, List.getD_eq_getElem?_getD]

theorem whole_new (width height : ℕ) : (new width height).Whole where
  sync := synchronized_new width height
  painting _ _ hpainter := by cases hpainter
  paints _ hmem := absurd hmem List.not_mem_nil

/-- New objects leave the old ones as they are. -/
theorem Whole.drawImage (whole : s.Whole) (imageData : List UInt8) :
    (s.drawImage imageData).Whole := by
  have hsync := whole.sync.drawImage imageData
  rw [GuiDrawPanel.drawImage] at hsync ⊢
  split at hsync
  · refine ⟨hsync, fun p tested hpainter hfresh => ?_, fun paint hmem hfresh => ?_⟩
    · have hfits := whole.sync.painter
      have hpainter : s.painter = .painting p tested := hpainter
      rw [hpainter] at hfits
      have hold : p.monitor < s.arrays.length := by
        rw [hfits.fresh hfresh]
        exact whole.sync.current
      rw [array, array_eq_of_append hold]
      exact whole.painting p tested hpainter hfresh
    · obtain ⟨hthrew, htorn, hold, hof, hlength⟩ := whole.paints paint hmem hfresh
      rw [array, array_eq_of_append hold]
      refine ⟨hthrew, htorn, ?_, hof, hlength⟩
      rw [List.length_append]
      exact Nat.lt_add_right _ hold
  · exact whole

theorem Whole.drawerStep (whole : s.Whole) : s.drawerStep.Whole := by
  have hsync := whole.sync.drawerStep
  rw [GuiDrawPanel.drawerStep] at hsync ⊢
  cases hdrawer : s.drawer with
  | idle => exact whole
  | entering monitor imageData =>
    rw [hdrawer] at hsync
    dsimp only at hsync ⊢
    by_cases hheld : s.painter.holds = some monitor
    · rw [if_pos hheld]
      exact whole
    · rw [if_neg hheld] at hsync ⊢
      exact ⟨hsync, whole.painting, whole.paints⟩
  | assigning monitor imageData | leaving monitor =>
    rw [hdrawer] at hsync
    exact ⟨hsync, whole.painting, whole.paints⟩

theorem Whole.paintComponent (whole : s.Whole) : s.paintComponent.Whole := by
  have hsync := whole.sync.paintComponent
  rw [GuiDrawPanel.paintComponent] at hsync ⊢
  split at hsync
  · exact ⟨hsync, fun _ _ hpainter => (by cases hpainter), whole.paints⟩
  · exact whole

/-- A call that leaves its loop has painted all of its object. -/
theorem Whole.finish (whole : s.Whole) {p : Painting} {tested : Bool}
    (hpainter : s.painter = .painting p tested) {threw : Bool}
    (ended : p.fresh = true → threw = false ∧ (s.array p.monitor).length ≤ p.byteIndex) :
    (s.finish p threw).Whole := by
  have hfits := whole.sync.painter
  rw [hpainter] at hfits
  refine ⟨whole.sync.finish p threw, fun _ _ hpainter => (by cases hpainter),
    fun paint hmem hfresh => ?_⟩
  rcases List.mem_append.mp hmem with hbefore | hnew
  · exact whole.paints paint hbefore hfresh
  · obtain rfl := List.mem_singleton.mp hnew
    obtain ⟨hof, -⟩ := whole.painting p tested hpainter hfresh
    obtain ⟨hthrew, hlength⟩ := ended hfresh
    have hsources := hfits.sources hfresh
    refine ⟨hthrew, ?_, ?_, hof, Nat.le_antisymm hof.within hlength⟩
    · rintro ⟨i, hi, j, hj, hne⟩
      exact hne ((hsources i hi).trans (hsources j hj).symm)
    · show p.monitor < s.arrays.length
      rw [hfits.fresh hfresh]
      exact whole.sync.current

/-- One more byte has been drawn. -/
theorem of_draw {p : Painting} {width : ℕ} {image : List UInt8} {byte : UInt8} (pos : 0 < width)
    (of : p.Of width image) (at_index : image[p.byteIndex]? = some byte) (source : ℕ) :
    (p.draw width source byte).Of width image where
  within := (List.getElem?_eq_some_iff.mp at_index).1
  point := by
    rw [Painting.draw, of.point, Raster.next_pointAt pos]
  drawn := by
    obtain ⟨hlt, hbyte⟩ := List.getElem?_eq_some_iff.mp at_index
    have hlength : (image.take p.byteIndex).length = p.byteIndex :=
      List.length_take_of_le of.within
    have hscan := Raster.scan_append_singleton pos 0 (image.take p.byteIndex) byte
    rw [Raster.pointAt_zero, hlength, Nat.zero_add] at hscan
    rw [Painting.draw, of.drawn, of.point, ← hscan, ← hbyte, List.take_append_getElem]

theorem Whole.painterStep (pos : 0 < s.width) (whole : s.Whole) : s.painterStep.Whole := by
  have hsync := whole.sync.painterStep
  have hfits := whole.sync.painter
  rw [GuiDrawPanel.painterStep] at hsync ⊢
  cases hpainter : s.painter with
  | idle =>
    exact whole
  | entering monitor =>
    rw [hpainter] at hsync
    dsimp only at hsync ⊢
    by_cases hheld : s.drawer.holds = some monitor
    · rw [if_pos hheld]
      exact whole
    · rw [if_neg hheld] at hsync ⊢
      refine ⟨hsync, fun p tested hstate hfresh => ?_, whole.paints⟩
      obtain ⟨rfl, rfl⟩ := Painter.painting.inj hstate
      exact ⟨⟨Nat.zero_le _, (Raster.pointAt_zero _).symm, rfl⟩, fun h => by cases h⟩
  | painting p tested =>
    rw [hpainter] at hsync hfits
    have hfield : p.fresh = true → s.array s.imageData = s.array p.monitor := fun hfresh => by
      rw [hfits.fresh hfresh]
    cases tested with
    | false =>
      dsimp only at hsync ⊢
      by_cases hmore : p.byteIndex < (s.array s.imageData).length
      · rw [if_pos hmore] at hsync ⊢
        refine ⟨hsync, fun p' tested' hstate hfresh => ?_, whole.paints⟩
        obtain ⟨rfl, rfl⟩ := Painter.painting.inj hstate
        obtain ⟨hof, -⟩ := whole.painting p false hpainter hfresh
        exact ⟨hof, fun _ => hfield hfresh ▸ hmore⟩
      · rw [if_neg hmore]
        exact whole.finish hpainter fun hfresh => ⟨rfl, hfield hfresh ▸ Nat.not_lt.mp hmore⟩
    | true =>
      dsimp only at hsync ⊢
      cases hbyte : (s.array s.imageData)[p.byteIndex]? with
      | some byte =>
        rw [hbyte] at hsync
        refine ⟨hsync, fun p' tested' hstate hfresh => ?_, whole.paints⟩
        obtain ⟨rfl, rfl⟩ := Painter.painting.inj hstate
        obtain ⟨hof, -⟩ := whole.painting p true hpainter hfresh
        rw [hfield hfresh] at hbyte
        exact ⟨of_draw pos hof hbyte _, fun h => by cases h⟩
      | none =>
        refine whole.finish hpainter fun hfresh => ?_
        -- the test of the loop has been of the same array
        obtain ⟨-, hlt⟩ := whole.painting p true hpainter hfresh
        rw [hfield hfresh, List.getElem?_eq_none_iff] at hbyte
        exact absurd (hlt rfl) (Nat.not_lt.mpr hbyte)

theorem width_step (s : GuiDrawPanel) (action : PanelAction) : (s.step action).width = s.width := by
  cases action with
  | drawImage imageData => rw [step, GuiDrawPanel.drawImage]; split <;> rfl
  | drawer => rw [step, GuiDrawPanel.drawerStep]; split <;> (try split) <;> rfl
  | paintComponent => rw [step, GuiDrawPanel.paintComponent]; split <;> rfl
  | painter =>
    rw [step, GuiDrawPanel.painterStep]
    split
    · rfl
    · split <;> rfl
    · split <;> rfl
    · split <;> rfl

theorem whole_step (s : GuiDrawPanel) (action : PanelAction) (whole : 0 < s.width ∧ s.Whole) :
    0 < (s.step action).width ∧ (s.step action).Whole := by
  obtain ⟨pos, whole⟩ := whole
  rw [width_step]
  refine ⟨pos, ?_⟩
  cases action with
  | drawImage imageData => exact whole.drawImage imageData
  | drawer => exact whole.drawerStep
  | paintComponent => exact whole.paintComponent
  | painter => exact whole.painterStep pos

/-- A call for which the field has not changed while it waited ends without an exception, and
paints its image row by row: at `(x, y)` the byte with the index `y * width + x`, and nothing
where the image has none. -/
def PaintsWhole (s : GuiDrawPanel) : Prop :=
  ∀ paint ∈ s.paints, paint.painting.fresh = true → paint.threw = false ∧ ¬paint.Torn ∧
    ∃ image, s.arrays[paint.painting.monitor]? = some image ∧
      ∀ (picture : Picture UInt8) (p : Point), Raster.draw picture paint.painting.drawn p =
        if p.x < s.width then image[Raster.indexAt s.width p]?.getD (picture p) else picture p

theorem Whole.paintsWhole (pos : 0 < s.width) (whole : s.Whole) : s.PaintsWhole := by
  intro paint hmem hfresh
  obtain ⟨hthrew, htorn, hrange, hof, hlength⟩ := whole.paints paint hmem hfresh
  refine ⟨hthrew, htorn, s.array paint.painting.monitor, ?_, fun picture p => ?_⟩
  · rw [array, List.getD_eq_getElem?_getD, List.getElem?_eq_getElem hrange, Option.getD_some]
  · rw [hof.drawn, hlength, List.take_length, Raster.draw_scan pos]

/-- **Whole images are painted** by the calls of `paintComponent` that find `imageData` as it
was when they began to wait, whatever the order of the two threads' steps. -/
theorem paintsWhole_run {width : ℕ} (pos : 0 < width) (height : ℕ) (actions : List PanelAction) :
    (run step (new width height) actions).PaintsWhole := by
  obtain ⟨hpos, hwhole⟩ := run_invariant step whole_step ⟨pos, whole_new width height⟩ actions
  exact hwhole.paintsWhole hpos

/-- The panel of the window, with an image painted on it. -/
theorem paintsWhole_window : (run step (new 640 480) ([.drawImage [7, 9], .drawer, .drawer,
    .drawer, .paintComponent] ++ .replicate 6 .painter)).PaintsWhole :=
  paintsWhole_run (by decide) 480 _

end Whole

end GuiDrawPanel

end PiVision
