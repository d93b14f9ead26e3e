import PiVision.EthTerm.ControlWords
import PiVision.EthTerm.Execute

/-!
# Which frames are delivered

The peer writes a stream of frames, or the front part of one it got to. As long as
receptions are not cut short, each round reads the next frame and raises it if it is
data. A round whose reception is cut short clears `active`, so it is the last round
that reads; but what arrived is classified all the same, and unless its length decodes
to zero or a control word has arrived it is raised and acknowledged.
-/

namespace PiVision

open LittleEndian Framing Machine ScriptLoop

namespace EthTermConnection

/-- Only whole frames are delivered: what has been raised is a front part of the data
payloads sent, and no reception that was cut short was raised or acknowledged. -/
structure OnlyWholeFrames (frames : List (List UInt8)) (s : ExecuteState) : Prop where
  in_order : s.raised.map (fun read => read.dataBuf.bytes) <+: frames.filter (IsData ·)
  raised_whole : ∀ read ∈ s.raised, read.Whole
  acked_whole : ∀ read ∈ s.acked, read.Whole

/-- The numbers of header and payload bytes that the socket lets a round have, if the
round gets as far as classifying them. -/
def received (s : ExecuteState) (stop : Bool) : Option (ℕ × ℕ) :=
  match s.status with
  | .running =>
    let conn := if stop then s.conn.handleStop else s.conn
    if conn.active then
      match readFrame s.recvs conn s.wire with
      | .waiting _ => none
      | .returned r _ => some (r.read.header.size, r.read.dataBuf.size)
    else none
  | .blocked | .finished => none

/-- Having `a` header bytes and `b` payload bytes from the front of the wire does no
harm: the frame is complete, or the length of the header bytes is zero, or a control
word has arrived. -/
def HarmlessCut (wire : List UInt8) (a b : ℕ) : Prop :=
  (a = payloadSizeHeaderSize ∧ b = leValue (wire.take a)) ∨
    leValue (wire.take a) = 0 ∨
    (4 ≤ leValue (wire.take a) ∧ StartsWithControlWord ((wire.drop a).take b))

/-- If the round's reception is cut short, the cut does no harm. -/
def CutsHarmless (s : ExecuteState) (stop : Bool) : Prop :=
  ∀ a b, received s stop = some (a, b) → HarmlessCut s.wire a b

/-! ## What a round can do -/

/-- What a round can do: nothing to the record, when it does not get to classify a
payload; or classify what it has read. -/
theorem executeRound_cases (ownPid : ℕ) (s : ExecuteState) (stop : Bool) :
    (received s stop = none ∧ (executeRound ownPid s stop).raised = s.raised ∧
      (executeRound ownPid s stop).acked = s.acked ∧
      (executeRound ownPid s stop = s ∨ (executeRound ownPid s stop).status ≠ .running)) ∨
    (s.status = .running ∧ s.conn.active = true ∧
      ∃ r rest, ReadSpec s.conn s.wire r ∧
        received s stop = some (r.read.header.size, r.read.dataBuf.size) ∧
        executeRound ownPid s stop = handlePayload ownPid r.read (s.afterRead r rest)) := by
  unfold executeRound received
  cases hstatus : s.status with
  | blocked | finished => simp
  | running =>
    cases stop with
    | true => simp [handleStop]
    | false =>
      by_cases hactive : s.conn.active = true
      · simp only [Bool.false_eq_true, if_false, hactive, if_true]
        cases hread : readFrame s.recvs s.conn s.wire with
        | waiting r => simp
        | returned r rest => exact .inr ⟨trivial, trivial, r, rest, readFrame_spec hread, rfl, rfl⟩
      · simp [hactive]

/-- A reception is raised or not according to the bytes that arrived. -/
theorem classify_read_ne_data_iff {conn : EthTermConnection} {wire : List UInt8} {r : ReadState}
    (spec : ReadSpec conn wire r) (cut : ¬ r.read.Whole) :
    classify r.read.payloadLength r.read.dataBuf ≠ .data ↔
      HarmlessCut wire r.read.header.size r.read.dataBuf.size := by
  have hcut : ¬ (r.read.header.size = payloadSizeHeaderSize ∧
      r.read.dataBuf.size = leValue (wire.take r.read.header.size)) := by
    rwa [← spec.length]
  rw [ne_eq, classify_eq_data_iff, HarmlessCut, or_iff_right hcut, spec.payload, spec.length,
    Nat.pos_iff_ne_zero]
  tauto

/-- A whole reception takes the first frame off the stream. -/
theorem whole_read_eq {conn : EthTermConnection} {frames : List (List UInt8)}
    (fits : ∀ p ∈ frames, p.length < uint32Range) {wire : List UInt8}
    (written : wire <+: encodeFrames 4 frames) {r : ReadState} (spec : ReadSpec conn wire r)
    (whole : r.read.Whole) :
    ∃ p rest, frames = p :: rest ∧ r.read.dataBuf.bytes = p ∧
      r.read.payloadLength = p.length ∧ r.wire <+: encodeFrames 4 rest := by
  obtain ⟨hheader, hpayload⟩ := whole
  have hlen : r.read.header.size ≤ wire.length := by
    rw [← PiVisionData.length_bytes, spec.header]
    exact List.length_take_le' _ _
  cases frames with
  | nil =>
    -- nothing was written, so no header can have arrived
    have hnil : wire = [] := List.prefix_nil.mp written
    rw [hnil, hheader] at hlen
    simp [payloadSizeHeaderSize] at hlen
  | cons p rest =>
    have hfour : wire.take 4 = (encodeFrame 4 p ++ encodeFrames 4 rest).take 4 := by
      rw [List.prefix_iff_eq_take.mp written, List.take_take,
        Nat.min_eq_left (by rw [hheader] at hlen; exact hlen), encodeFrames_cons]
    have hlength : r.read.payloadLength = p.length := by
      rw [spec.length, hheader, payloadSizeHeaderSize, hfour]
      exact leValue_take_encodeFrame 4 (by simpa [uint32Range] using fits p (by simp)) _
    have hbody : wire.drop 4 <+: p ++ encodeFrames 4 rest := by
      have h := written.drop 4
      rwa [encodeFrames_cons, encodeFrame, List.append_assoc,
        List.drop_left' (length_leBytes _ _)] at h
    have hbytes : r.read.dataBuf.bytes = (wire.drop 4).take p.length := by
      rw [spec.payload, hheader, hpayload, hlength, payloadSizeHeaderSize]
    have hall : p.length ≤ (wire.drop 4).length := by
      rw [← hlength, ← hpayload, ← PiVisionData.length_bytes, spec.payload, hheader]
      exact List.length_take_le' _ _
    refine ⟨p, rest, rfl, ?_, hlength, ?_⟩
    · rw [hbytes, List.prefix_iff_eq_take.mp hbody, List.take_take, Nat.min_eq_left hall,
        List.take_left' rfl]
    · rw [spec.rest, hheader, hpayload, hlength, payloadSizeHeaderSize, ← List.drop_drop]
      have h := hbody.drop p.length
      rwa [List.drop_left' rfl] at h

/-! ## The invariant -/

/-- What holds before each round of a run whose cuts do no harm. While the loop runs on
an active connection, it stands between two frames. -/
structure DeliveryInv (frames : List (List UInt8)) (s : ExecuteState) : Prop where
  only : OnlyWholeFrames frames s
  aligned : s.status = .running → s.conn.active = true →
    ∃ done todo, frames = done ++ todo ∧ s.wire <+: encodeFrames 4 todo ∧
      s.raised.map (fun read => read.dataBuf.bytes) = done.filter (IsData ·)

theorem deliveryInv_round {frames : List (List UInt8)}
    (fits : ∀ p ∈ frames, p.length < uint32Range) (ownPid : ℕ) (s : ExecuteState) (stop : Bool)
    (inv : DeliveryInv frames s) (harmless : CutsHarmless s stop) :
    DeliveryInv frames (executeRound ownPid s stop) := by
  rcases executeRound_cases ownPid s stop with
    ⟨-, hraised, hacked, hidle⟩ | ⟨hstatus, hactive, r, rest, spec, hreceived, hround⟩
  -- no payload was classified: the record stays, and so does the place between two frames
  · refine ⟨⟨?_, ?_, ?_⟩, fun hrunning => ?_⟩
    · rw [hraised]; exact inv.only.in_order
    · rw [hraised]; exact inv.only.raised_whole
    · rw [hacked]; exact inv.only.acked_whole
    · rcases hidle with hsame | hleft
      · rw [hsame] at hrunning ⊢
        exact inv.aligned hrunning
      · exact absurd hrunning hleft
  · obtain ⟨done, todo, hframes, hwire, hdone⟩ := inv.aligned hstatus hactive
    -- the round has taken a frame in full, or it is the last that reads
    obtain ⟨hwire', -, hdelivered⟩ := handlePayload_cases ownPid r.read (s.afterRead r rest)
    by_cases hwhole : r.read.Whole
    · obtain ⟨p, todo', rfl, hbytes, -, hrest⟩ :=
        whole_read_eq (fun q hq => fits q (by simp [hframes, hq])) hwire spec hwhole
      have hframes' : frames = (done ++ [p]) ++ todo' := by simp [hframes]
      have hkind : classify r.read.payloadLength r.read.dataBuf = .data ↔ IsData p := by
        rw [← hbytes]
        exact classify_eq_data_iff_isData _ _ hwhole.2
      -- `p` joins the frames dealt with; it was raised exactly if it counts there as data
      have hmap : (executeRound ownPid s stop).raised.map (fun read => read.dataBuf.bytes) =
          (done ++ [p]).filter (IsData ·) := by
        rw [hround]
        -- the frame moves to those dealt with, and onto the record if it is data
        rcases hdelivered with ⟨hdata, hraised, -⟩ | ⟨hnot, hraised, -⟩ <;> rw [hraised]
        · simp [ExecuteState.afterRead, hdone, hbytes, hkind.mp hdata]
        · have hnotData : ¬ IsData p := fun h => hnot (hkind.mpr h)
          simp [ExecuteState.afterRead, hdone, hnotData]
      refine ⟨⟨?_, ?_, ?_⟩, fun _ _ => ⟨done ++ [p], todo', hframes', ?_, hmap⟩⟩
      · rw [hmap, hframes', List.filter_append (done ++ [p])]
        exact List.prefix_append _ _
      · rw [hround]
        intro read hmem
        rcases mem_raised_handlePayload hmem with hold | rfl
        · exact inv.only.raised_whole read hold
        · exact hwhole
      · rw [hround]
        intro read hmem
        rcases mem_acked_handlePayload hmem with hold | rfl
        · exact inv.only.acked_whole read hold
        · exact hwhole
      · rw [hround, hwire']
        exact hrest
    · -- the reception was cut short: the connection is given up, and nothing is raised
      have hnot := (classify_read_ne_data_iff spec hwhole).mpr (harmless _ _ hreceived)
      rw [hround]
      rcases hdelivered with ⟨hdata, -, -⟩ | ⟨-, hraised, hacked, hactive'⟩
      · exact absurd hdata hnot
      · refine ⟨⟨?_, ?_, ?_⟩, fun _ hstill => ?_⟩
        · rw [hraised]; exact inv.only.in_order
        · rw [hraised]; exact inv.only.raised_whole
        · rw [hacked]; exact inv.only.acked_whole
        · rw [hactive'] at hstill
          exact absurd (spec.whole hstill) hwhole

theorem deliveryInv_start {frames : List (List UInt8)} (conn : EthTermConnection)
    {wire : List UInt8} (written : wire <+: encodeFrames 4 frames) (recvs : List RecvInput)
    (sends : List SendOutcome) : DeliveryInv frames (.start conn wire recvs sends) :=
  ⟨⟨List.nil_prefix, by simp [ExecuteState.start], by simp [ExecuteState.start]⟩,
    fun _ _ => ⟨[], frames, rfl, written, rfl⟩⟩

/-- The record of what was raised only grows. -/
theorem raised_prefix_run (ownPid : ℕ) (s : ExecuteState) (stops : List Bool) :
    s.raised <+: (run (executeRound ownPid) s stops).raised := by
  -- along the rounds, of which each adds at most one payload at the end
  induction stops generalizing s with
  | nil => exact List.prefix_rfl
  | cons stop stops ih =>
    refine List.IsPrefix.trans ?_ (ih (executeRound ownPid s stop))
    rcases executeRound_cases ownPid s stop with
      ⟨-, hraised, -⟩ | ⟨-, -, r, rest, -, -, hround⟩
    · rw [hraised]
    · rw [hround]
      obtain ⟨-, -, ⟨-, hraised, -⟩ | ⟨-, hraised, -⟩⟩ :=
        handlePayload_cases ownPid r.read (s.afterRead r rest) <;> rw [hraised]
      · exact List.prefix_append _ _
      · exact List.prefix_rfl

/-- A round whose cut does harm raises what it had received. -/
theorem raised_of_not_harmless (ownPid : ℕ) {s : ExecuteState} {stop : Bool}
    (harm : ¬ CutsHarmless s stop) :
    ∃ read ∈ (executeRound ownPid s stop).raised, ¬ read.Whole := by
  unfold CutsHarmless at harm
  push Not at harm
  obtain ⟨a, b, hreceived, hharm⟩ := harm
  rcases executeRound_cases ownPid s stop with
    ⟨hnone, -⟩ | ⟨-, -, r, rest, spec, hsome, hround⟩
  · rw [hnone] at hreceived
    cases hreceived
  · rw [hsome] at hreceived
    cases hreceived
    -- a whole reception would have been harmless, and so would one that is not data
    have hwhole : ¬ r.read.Whole := fun hwhole =>
      hharm (.inl ⟨hwhole.1, by rw [← spec.length]; exact hwhole.2⟩)
    have hdata : classify r.read.payloadLength r.read.dataBuf = .data := by
      by_contra hnot
      exact hharm ((classify_read_ne_data_iff spec hwhole).mp hnot)
    refine ⟨r.read, ?_, hwhole⟩
    rw [hround]
    obtain ⟨-, -, ⟨-, hraised, -⟩ | ⟨hnot, -⟩⟩ :=
      handlePayload_cases ownPid r.read (s.afterRead r rest)
    · simp [hraised]
    · exact absurd hdata hnot

/-- **Only whole frames are delivered exactly when no cut does harm.** -/
theorem onlyWholeFrames_iff_cutsHarmless (ownPid : ℕ) (conn : EthTermConnection)
    (frames : List (List UInt8)) (fits : ∀ p ∈ frames, p.length < uint32Range)
    (wire : List UInt8) (written : wire <+: encodeFrames 4 frames) (recvs : List RecvInput)
    (sends : List SendOutcome) (stops : List Bool) :
    OnlyWholeFrames frames (run (executeRound ownPid) (.start conn wire recvs sends) stops) ↔
      Along (executeRound ownPid) CutsHarmless (.start conn wire recvs sends) stops := by
  constructor
  · intro only
    rw [along_iff_forall_split]
    rintro pre stop post rfl
    by_contra harm
    -- what a harmful cut raised stays on the record to the end of the run
    obtain ⟨read, hmem, hcut⟩ := raised_of_not_harmless ownPid harm
    have hgrows := raised_prefix_run ownPid
      (executeRound ownPid (run (executeRound ownPid) (.start conn wire recvs sends) pre) stop) post
    rw [run_append, run_cons] at only
    exact hcut (only.raised_whole read (hgrows.subset hmem))
  · intro along
    exact (run_invariant_along (fun s stop inv harmless =>
      deliveryInv_round fits ownPid s stop inv harmless)
      (deliveryInv_start conn written recvs sends) along).only

/-- A one-byte frame received in one piece is delivered whole. -/
theorem onlyWholeFrames_oneByte :
    OnlyWholeFrames [[7]] (run (executeRound 1) (.start (.new .client 0x1000 3)
      (encodeFrames 4 [[7]]) [.attempt (.chunk 3), .attempt (.chunk 0)]
      [.accepted 3, .accepted 3]) [false]) := by
  refine (onlyWholeFrames_iff_cutsHarmless 1 _ [[7]] (by decide) (encodeFrames 4 [[7]])
    List.prefix_rfl _ _ [false]).mpr ⟨?_, trivial⟩
  intro a b hreceived
  obtain ⟨rfl, rfl⟩ : 4 = a ∧ 1 = b := by
    simpa using (show some (4, 1) = some (a, b) from hreceived)
  exact .inl ⟨rfl, rfl⟩

/-- A stop after two of three payload bytes: the two bytes are raised as a payload. -/
theorem onlyWholeFrames_broken_by_stop :
    ¬ OnlyWholeFrames [[1, 2, 3]] (run (executeRound 1) (.start (.new .client 0x1000 3)
      (encodeFrames 4 [[1, 2, 3]])
      [.attempt (.chunk 3), .attempt (.chunk 1), .stop, .attempt .failed]
      [.accepted 3, .accepted 3]) [false]) := by
  rintro ⟨horder, -, -⟩
  exact absurd horder (by decide)

end EthTermConnection

end PiVision
