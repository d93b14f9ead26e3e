import PiVision.ImageData.Lockstep
import PiVision.Server.Transfer

/-!
# Clients that come and go

`handleNewConnections` accepts a client whenever one waits, also when an earlier client
has been accepted: the new socket takes the place of the old one. It does not tell the
data transport, which goes on with the mode and the frame number that the earlier client
has left, while a new client counts from 0. Where the service is, is told only before the
first client is accepted; a client that comes later has asked by then.

Which mode and number a client finds is decided by what has gone over the connections
before it, and it gets on with them only after whole rounds of 256 acknowledged images.
-/

namespace PiVision

open Machine

/-- What has gone over the connections of the service. No function reads it. -/
structure Traffic where
  /-- The images that `SERVER_send` has returned from. -/
  images : ℕ
  /-- The acks that `run` has received. -/
  acks : ℕ
  /-- The end of a stream has been received before any ack was. -/
  endedFirst : Bool
  deriving DecidableEq, Repr

/-- A call of `run` has received this. -/
def Traffic.receive (t : Traffic) : Option (List UInt8) → Traffic
  | none => t
  | some chunk =>
    if chunk.length = ackBufSize then { t with acks := t.acks + 1 }
    else if chunk = [] ∧ t.acks = 0 then { t with endedFirst := true }
    else t

theorem Traffic.receive_nil (t : Traffic) :
    t.receive (some []) = { t with endedFirst := t.endedFirst || decide (t.acks = 0) } := by
  by_cases hacks : t.acks = 0
  · simp [receive, ackBufSize, hacks]
  · simp [receive, ackBufSize, hacks]

/-- Every image has been acknowledged, and the 8-bit count is back where it began. -/
def Traffic.AllAcknowledged (t : Traffic) : Prop :=
  t.images = t.acks ∧ 256 ∣ t.acks ∧ t.endedFirst = false

instance (t : Traffic) : Decidable t.AllAcknowledged := inferInstanceAs (Decidable (_ ∧ _ ∧ _))

/-- The image service: the data transport with the client accepted last, `connected` of its
context, whether that client is still there, and whether a call of `SERVER_send` has not
returned, with which all of the server stands still. -/
structure ImageService where
  link : ImageLink
  connected : Bool
  alive : Bool
  blocked : Bool
  traffic : Traffic

/-- What can happen: a call of `IMGDATATL_sendGrayscaleImage`, with the answers that `send`
gives in it; a call of `run`, in which `recv` times out or has so many bytes beyond the
first one ready; a step of the client's loop; the client goes, and so many bytes of what it
has sent still arrive; a call of `handleNewConnections` with a client that waits. -/
inductive ServiceAction
  | sendGrayscaleImage (image : SendableImage) (answers : List (Option ℕ))
  | run (ready : Option ℕ)
  | client (extra : ℕ)
  | disconnect (delivered : ℕ)
  | handleNewConnections

namespace ImageService

/-- The service published, before the first client. -/
def start : ImageService := ⟨.start, false, false, false, ⟨0, 0, false⟩⟩

def sendGrayscaleImage (s : ImageService) (image : SendableImage) (answers : List (Option ℕ)) :
    ImageService :=
  if s.link.tl.state = .sendData then
    match Server.send s.connected (DataTL.bufToSend image.bytes) answers with
    | .failed =>
      { s with link := { s.link with tl := (s.link.tl.sendGrayscaleImage image.bytes false).1 } }
    | .sent stream =>
      { s with
        link := { s.link with
          tl := (s.link.tl.sendGrayscaleImage image.bytes true).1
          toClient := s.link.toClient ++ stream }
        traffic := { s.traffic with images := s.traffic.images + 1 } }
    | .sending stream =>
      { s with
        link := { s.link with toClient := s.link.toClient ++ stream }
        blocked := true }
  else
    { s with
      link := { s.link with tl := (s.link.tl.sendGrayscaleImage image.bytes s.connected).1 } }

/-- What `recv` returns. A stream that has ended gives no bytes once it is empty. -/
def recv (s : ImageService) : Option ℕ → Option (List UInt8)
  | none => none
  | some extra =>
    if s.link.toServer = [] then if s.alive then none else some []
    else some (s.link.toServer.take (min ackBufSize (extra + 1)))

/-- What `SERVER_receive` returns. -/
def received (s : ImageService) (ready : Option ℕ) : Option (List UInt8) :=
  Server.receive s.connected (s.recv ready)

/-- A call that times out. -/
@[simp] theorem received_none (s : ImageService) : s.received none = none := by
  simp [received, recv, Server.receive]

def run (s : ImageService) (ready : Option ℕ) : ImageService :=
  { s with
    link := { s.link with
      tl := s.link.tl.run (s.received ready)
      toServer := s.link.toServer.drop ((s.received ready).getD []).length }
    traffic := s.traffic.receive (s.received ready) }

/-- The client goes. What it has sent may be lost. -/
def disconnect (s : ImageService) (delivered : ℕ) : ImageService :=
  { s with
    link := { s.link with toServer := s.link.toServer.take delivered }
    alive := false }

/-- A client that waits is accepted. Of the data transport nothing changes. -/
def handleNewConnections (s : ImageService) : ImageService :=
  { s with link := ⟨s.link.tl, [], .init, []⟩, connected := true, alive := true }

def step (s : ImageService) : ServiceAction → ImageService
  | .sendGrayscaleImage image answers =>
    if s.blocked then s else s.sendGrayscaleImage image answers
  | .run ready => if s.blocked then s else s.run ready
  | .client extra => if s.alive then { s with link := s.link.clientStep extra } else s
  | .disconnect delivered => s.disconnect delivered
  | .handleNewConnections => if s.blocked then s else s.handleNewConnections

/-! ## The law -/

/-- The client accepted last and the data transport begin alike, and will go on in
lockstep. -/
structure Fresh (s : ImageService) : Prop where
  state : s.link.tl.state = .sendData
  frameNo : s.link.client.frameNo = s.link.tl.frameNo.toNat
  lockstep : ∀ actions, (Machine.run ImageLink.step s.link actions).Lockstep

/-- The law of a step. -/
structure Survives (s : ImageService) (action : ServiceAction) : Prop where
  /-- A client that has been accepted finds the transport ready for it. -/
  accepted : action = .handleNewConnections → s.blocked = false → (s.step action).Fresh
  /-- The client that is there can send the ack that is waited for. -/
  answerable : (s.step action).alive = true → (s.step action).link.tl.state = .waitForAck →
    (s.step action).link.Answerable

/-- `SERVER_send` puts exactly its buffer on the stream, and `SERVER_receive` gives a whole
ack, the end of the stream, or `-1`. -/
def Whole (s : ImageService) : ServiceAction → Prop
  | .sendGrayscaleImage image answers =>
    s.link.tl.state = .sendData → s.connected = true →
      Server.send true (DataTL.bufToSend image.bytes) answers =
        .sent (DataTL.bufToSend image.bytes)
  | .run ready => ∀ chunk, s.received ready = some chunk → chunk = [] ∨ chunk.length = ackBufSize
  | _ => True

/-- A client is accepted only when all that was sent to the earlier ones is acknowledged. -/
def AcceptsAcknowledged (s : ImageService) : ServiceAction → Prop
  | .handleNewConnections => s.traffic.AllAcknowledged
  | _ => True

/-! ## What the mode and the number say -/

/-- The frame number counts the acks, the mode says whether one more image has been sent,
and no more than the ack for it is on its way. The last byte of `ackBuf` is not the current
number, unless no ack has come. -/
structure Counts (s : ImageService) : Prop where
  endedFirst : s.traffic.endedFirst = false
  frameNo : s.link.tl.frameNo.toNat = s.traffic.acks % 256
  images : s.traffic.images =
    s.traffic.acks + if s.link.tl.state = .waitForAck then 1 else 0
  ack : s.link.toServer <+: PythonClient.ackData s.link.tl.frameNo.toNat
  waits : s.link.toServer ≠ [] → s.link.tl.state = .waitForAck
  ackBuf : s.link.tl.ackBuf.get ackBufFrameNoOffset = s.link.tl.frameNo ↔ s.traffic.acks = 0

/-- The first client has gone without an ack, and the end of its stream has been taken for
one. -/
structure EndedFirst (s : ImageService) : Prop where
  ended : s.traffic.endedFirst = true
  gone : s.alive = false
  no_ack : s.link.toServer = []
  frameNo : s.link.tl.frameNo = 1
  ackBuf : s.link.tl.ackBuf.get ackBufFrameNoOffset = 0

/-- What holds between two steps, as long as the law does. -/
structure ServiceInv (s : ImageService) : Prop where
  returned : s.blocked = false
  connected : s.alive = true → s.connected = true
  link : s.alive = true → s.link.LinkInv
  counts : s.Counts ∨ s.EndedFirst

theorem serviceInv_start : start.ServiceInv where
  returned := rfl
  connected h := nomatch h
  link h := nomatch h
  counts := .inl {
    endedFirst := rfl
    frameNo := rfl
    images := rfl
    ack := List.nil_prefix
    waits h := absurd rfl h
    ackBuf := iff_of_true rfl rfl }

section Steps

variable {s : ImageService}

/-- The mode and the number are those of a new client if and only if all images are
acknowledged. -/
theorem ServiceInv.fresh_iff (inv : s.ServiceInv) :
    s.link.tl.state = .sendData ∧ s.link.tl.frameNo = 0 ↔ s.traffic.AllAcknowledged := by
  rcases inv.counts with counts | ended
  · have hstate : s.link.tl.state = .sendData ↔ s.traffic.images = s.traffic.acks := by
      rw [counts.images]
      cases s.link.tl.state <;> simp
    have hframeNo : s.link.tl.frameNo = 0 ↔ 256 ∣ s.traffic.acks := by
      rw [Nat.dvd_iff_mod_eq_zero, ← counts.frameNo, ← UInt8.toNat_inj]
      rfl
    rw [hstate, hframeNo, Traffic.AllAcknowledged]
    exact ⟨fun h => ⟨h.1, h.2, counts.endedFirst⟩, fun h => ⟨h.1, h.2.1⟩⟩
  · refine iff_of_false (fun h => ?_) fun h => ?_
    · rw [ended.frameNo] at h
      exact absurd h.2 (by decide)
    · exact absurd (h.2.2.symm.trans ended.ended) (by decide)

/-! ### The next image -/

/-- With a connection, the two ends do what a send of the link does. -/
theorem link_sendGrayscaleImage {image : SendableImage} {answers : List (Option ℕ)}
    (connected : s.connected = true) (whole : s.Whole (.sendGrayscaleImage image answers)) :
    (s.sendGrayscaleImage image answers).link = s.link.step (.sendGrayscaleImage image) := by
  by_cases hstate : s.link.tl.state = .sendData
  · have hsend := whole hstate connected
    simp only [sendGrayscaleImage, if_pos hstate, connected, hsend, ImageLink.step,
      DataTL.sendGrayscaleImage, if_true]
  · simp only [sendGrayscaleImage, connected, ImageLink.step, DataTL.sendGrayscaleImage,
      if_neg hstate, List.append_nil]

/-- All that a send can change: an image has gone out, or one has been dropped. -/
theorem sendGrayscaleImage_cases {image : SendableImage} {answers : List (Option ℕ)}
    (whole : s.Whole (.sendGrayscaleImage image answers)) :
    ∃ tl toClient images, s.sendGrayscaleImage image answers =
        { s with
          link := { s.link with tl := tl, toClient := toClient }
          traffic := { s.traffic with images := images } } ∧
      tl.frameNo = s.link.tl.frameNo ∧ tl.ackBuf = s.link.tl.ackBuf ∧
      (tl.state = s.link.tl.state ∧ images = s.traffic.images ∨
        s.link.tl.state = .sendData ∧ tl.state = .waitForAck ∧
          images = s.traffic.images + 1) := by
  by_cases hstate : s.link.tl.state = .sendData
  · cases hconnected : s.connected with
    | true =>
      have hsend := whole hstate hconnected
      refine ⟨{ s.link.tl with state := .waitForAck },
        s.link.toClient ++ DataTL.bufToSend image.bytes, s.traffic.images + 1, ?_, rfl, rfl,
        .inr ⟨hstate, rfl, rfl⟩⟩
      simp only [sendGrayscaleImage, if_pos hstate, hconnected, hsend,
        DataTL.sendGrayscaleImage, if_true]
    | false =>
      refine ⟨(s.link.tl.sendGrayscaleImage image.bytes false).1, s.link.toClient,
        s.traffic.images, ?_, ?_, ?_, .inl ⟨?_, rfl⟩⟩
      · simp [sendGrayscaleImage, hstate, hconnected, Server.send]
      all_goals simp [DataTL.sendGrayscaleImage, hstate]
  · refine ⟨(s.link.tl.sendGrayscaleImage image.bytes s.connected).1, s.link.toClient,
      s.traffic.images, ?_, ?_, ?_, .inl ⟨?_, rfl⟩⟩
    · simp only [sendGrayscaleImage, if_neg hstate]
    all_goals simp [DataTL.sendGrayscaleImage, hstate]

theorem serviceInv_send (inv : s.ServiceInv) {image : SendableImage}
    {answers : List (Option ℕ)} (whole : s.Whole (.sendGrayscaleImage image answers)) :
    (s.sendGrayscaleImage image answers).ServiceInv := by
  have hlink : s.alive = true → (s.sendGrayscaleImage image answers).link.LinkInv := by
    intro halive
    rw [link_sendGrayscaleImage (inv.connected halive) whole]
    exact ImageLink.linkInv_step _ _ (inv.link halive)
  obtain ⟨tl, toClient, images, hsend, hframeNo, hackBuf, hmode⟩ := sendGrayscaleImage_cases whole
  rw [hsend] at hlink ⊢
  refine ⟨inv.returned, inv.connected, hlink, ?_⟩
  rcases inv.counts with counts | ended
  · refine .inl ⟨counts.endedFirst, hframeNo ▸ counts.frameNo, ?_, ?_, ?_, ?_⟩
    · rcases hmode with ⟨hstate, himages⟩ | ⟨hbefore, hstate, himages⟩
      · show images = _ + if tl.state = _ then 1 else 0
        rw [himages, hstate]
        exact counts.images
      · show images = _ + if tl.state = _ then 1 else 0
        have hcount := counts.images
        rw [hbefore, if_neg (by decide), Nat.add_zero] at hcount
        rw [himages, hstate, if_pos rfl, hcount]
    · exact hframeNo ▸ counts.ack
    · intro hwire
      rcases hmode with ⟨hstate, -⟩ | ⟨-, hstate, -⟩
      · exact hstate.trans (counts.waits hwire)
      · exact hstate
    · show tl.ackBuf.get _ = tl.frameNo ↔ _
      rw [hframeNo, hackBuf]
      exact counts.ackBuf
  · exact .inr ⟨ended.ended, ended.gone, ended.no_ack, hframeNo.trans ended.frameNo,
      hackBuf ▸ ended.ackBuf⟩

/-! ### The next call of `run` -/

/-- Of acks that are no more than the one that is waited for, a whole chunk is that one. -/
theorem eq_ackData_of_take {acks chunk : List UInt8} {frameNo count : ℕ}
    (ack : acks <+: PythonClient.ackData frameNo) (htake : acks.take count = chunk)
    (whole : chunk.length = ackBufSize) : chunk = acks ∧ acks = PythonClient.ackData frameNo := by
  have hlength := ack.length_le
  rw [PythonClient.length_ackData] at hlength
  rw [← htake, List.length_take] at whole
  simp only [ackBufSize] at whole
  constructor
  · rw [← htake]
    exact List.take_of_length_le (by omega)
  · apply ack.eq_of_length
    rw [PythonClient.length_ackData]
    omega

/-- What `recv` returns when bytes are there. -/
theorem recv_of_wire (wire : s.link.toServer ≠ []) (extra : ℕ) :
    ∃ count chunk, s.recv (some extra) = some chunk ∧ s.link.toServer.take count = chunk ∧
      chunk ≠ [] := by
  refine ⟨min ackBufSize (extra + 1), _, by rw [recv, if_neg wire], rfl, fun hnil => ?_⟩
  rcases List.take_eq_nil_iff.mp hnil with hzero | hempty
  · simp only [ackBufSize] at hzero
    omega
  · exact wire hempty

/-- What a call receives, as long as the acks are those that are waited for: nothing, the end
of the stream of a client that has gone, or the ack. -/
theorem received_cases
    (ack : s.link.toServer <+: PythonClient.ackData s.link.tl.frameNo.toNat)
    {ready : Option ℕ} (whole : s.Whole (.run ready)) :
    s.received ready = none ∨
      (s.received ready = some [] ∧ s.alive = false ∧ s.link.toServer = []) ∨
      (s.received ready = some s.link.toServer ∧
        s.link.toServer = PythonClient.ackData s.link.tl.frameNo.toNat) := by
  cases hconnected : s.connected with
  | false => exact .inl (by simp [received, Server.receive, hconnected])
  | true =>
    have hreceived : s.received ready = s.recv ready := by
      simp [received, Server.receive, hconnected]
    cases ready with
    | none => exact .inl hreceived
    | some extra =>
      by_cases hwire : s.link.toServer = []
      · cases halive : s.alive with
        | false => exact .inr (.inl ⟨by simp [hreceived, recv, hwire, halive], rfl, hwire⟩)
        | true => exact .inl (by simp [hreceived, recv, hwire, halive])
      · obtain ⟨count, chunk, hrecv, htake, hsome⟩ := recv_of_wire hwire extra
        rw [hrecv] at hreceived
        have hlength := (whole chunk hreceived).resolve_left hsome
        obtain ⟨rfl, hack⟩ := eq_ackData_of_take ack htake hlength
        exact .inr (.inr ⟨hreceived, hack⟩)

/-- A call that receives nothing changes nothing. -/
theorem run_of_none {ready : Option ℕ} (none : s.received ready = none) : s.run ready = s := by
  simp [run, none, DataTL.run, Traffic.receive]

/-- What is behind a call that has received. -/
theorem run_of_some {ready : Option ℕ} {chunk : List UInt8}
    (received : s.received ready = some chunk) :
    s.run ready =
      { s with
        link := { s.link with
          tl := s.link.tl.run (some chunk)
          toServer := s.link.toServer.drop chunk.length }
        traffic := s.traffic.receive (some chunk) } := by
  simp [run, received]

/-- The client has gone and its stream has ended. -/
theorem counts_run_end (counts : s.Counts ∨ s.EndedFirst) {ready : Option ℕ}
    (received : s.received ready = some []) (gone : s.alive = false)
    (empty : s.link.toServer = []) : (s.run ready).Counts ∨ (s.run ready).EndedFirst := by
  rw [run_of_some received, empty, DataTL.run_nil, Traffic.receive_nil]
  rcases counts with counts | ended
  · by_cases hacks : s.traffic.acks = 0
    · -- the zero that `ackBuf` was born with is the number of the first frame
      have htested := counts.ackBuf.mpr hacks
      have hzero : s.link.tl.frameNo = 0 := by
        rw [← UInt8.toNat_inj, counts.frameNo, hacks]
        rfl
      rw [if_pos htested]
      refine .inr ⟨by simp [hacks], gone, rfl, ?_, htested.trans hzero⟩
      show s.link.tl.frameNo + 1 = 1
      rw [hzero]
      rfl
    · rw [if_neg (mt counts.ackBuf.mp hacks)]
      refine .inl { counts with endedFirst := ?_, ack := List.nil_prefix, waits := ?_ }
      · simp [counts.endedFirst, hacks]
      · exact fun hwire => absurd rfl hwire
  · have hother : s.link.tl.ackBuf.get ackBufFrameNoOffset ≠ s.link.tl.frameNo := by
      rw [ended.ackBuf, ended.frameNo]
      decide
    rw [if_neg hother]
    exact .inr { ended with ended := by simp [ended.ended], no_ack := rfl }

/-- The ack that is waited for has come. -/
theorem counts_run_ack (counts : s.Counts) {ready : Option ℕ}
    (received : s.received ready = some s.link.toServer)
    (ack : s.link.toServer = PythonClient.ackData s.link.tl.frameNo.toNat) :
    (s.run ready).Counts := by
  have hlength : s.link.toServer.length = ackBufSize := by
    rw [ack]
    exact PythonClient.length_ackData _
  have hwaits : s.link.tl.state = .waitForAck := by
    apply counts.waits
    intro hempty
    rw [hempty] at hlength
    exact absurd hlength (by decide)
  have hcurrent (byte : UInt8) :
      s.link.toServer.getD ackBufFrameNoOffset byte = s.link.tl.frameNo := by
    rw [ack]
    exact (PythonClient.getD_ackData _ byte).trans UInt8.ofNat_toNat
  obtain ⟨hstate, hframeNo⟩ := s.link.tl.run_of_ack hlength (hcurrent 0)
  have hbyte := s.link.tl.ackBuf_run (Nat.le_of_eq hlength)
  rw [hcurrent] at hbyte
  have hnext : s.link.tl.frameNo ≠ s.link.tl.frameNo + 1 := by simp
  have htraffic : s.traffic.receive (some s.link.toServer) =
      { s.traffic with acks := s.traffic.acks + 1 } := by
    rw [Traffic.receive, if_pos hlength]
  rw [run_of_some received, htraffic, List.drop_length]
  refine ⟨counts.endedFirst, ?_, ?_, List.nil_prefix, fun h => absurd rfl h, ?_⟩
  · show (s.link.tl.run _).frameNo.toNat = (s.traffic.acks + 1) % 256
    rw [hframeNo, UInt8.toNat_add, counts.frameNo, UInt8.toNat_one]
    omega
  · show s.traffic.images = s.traffic.acks + 1 + if (s.link.tl.run _).state = _ then 1 else 0
    rw [hstate, if_neg (by decide), counts.images, hwaits, if_pos rfl]
  · show (s.link.tl.run _).ackBuf.get _ = (s.link.tl.run _).frameNo ↔ s.traffic.acks + 1 = 0
    rw [hbyte, hframeNo]
    exact iff_of_false hnext (Nat.succ_ne_zero _)

/-- The acks of the invariant. -/
theorem ServiceInv.ack (inv : s.ServiceInv) :
    s.link.toServer <+: PythonClient.ackData s.link.tl.frameNo.toNat := by
  rcases inv.counts with counts | ended
  · exact counts.ack
  · rw [ended.no_ack]
    exact List.nil_prefix

theorem serviceInv_run (inv : s.ServiceInv) {ready : Option ℕ} (whole : s.Whole (.run ready)) :
    (s.run ready).ServiceInv := by
  rcases received_cases inv.ack whole with hnone | ⟨hend, hgone, hempty⟩ | ⟨hsome, hack⟩
  · rw [run_of_none hnone]
    exact inv
  · exact ⟨inv.returned, inv.connected, fun h => absurd (h.symm.trans hgone) (by decide),
      counts_run_end inv.counts hend hgone hempty⟩
  · have hlength : s.link.toServer.length = ackBufSize := by
      rw [hack]
      exact PythonClient.length_ackData _
    refine ⟨inv.returned, inv.connected, fun halive => ?_, ?_⟩
    · have hlink : (s.run ready).link = s.link.step (.run true) := by
        rw [run_of_some hsome]
        simp [ImageLink.step, ← hlength]
      rw [hlink]
      exact ImageLink.linkInv_step _ _ (inv.link halive)
    · rcases inv.counts with counts | ended
      · exact .inl (counts_run_ack counts hsome hack)
      · rw [ended.no_ack] at hlength
        exact absurd hlength (by decide)

/-! ### The client's next step, the last one, and the next client -/

/-- On a link between two steps no more than the ack that is waited for is on its way. -/
theorem ack_of_linkInv {link : ImageLink} (inv : link.LinkInv) :
    link.toServer <+: PythonClient.ackData link.tl.frameNo.toNat ∧
      (link.toServer ≠ [] → link.tl.state = .waitForAck) := by
  rcases inv.phase with idle | inFlight | inFlight
  · rw [idle.no_ack]
    exact ⟨List.nil_prefix, fun h => absurd rfl h⟩
  · rw [inFlight.no_ack]
    exact ⟨List.nil_prefix, fun h => absurd rfl h⟩
  · rw [inFlight.ack]
    exact ⟨List.prefix_rfl, fun _ => inFlight.state⟩

theorem serviceInv_client (inv : s.ServiceInv) (extra : ℕ) :
    (s.step (.client extra)).ServiceInv := by
  cases halive : s.alive with
  | false =>
    simp only [step, halive]
    exact inv
  | true =>
    have hlink := ImageLink.linkInv_client (inv.link halive) extra
    have htl := ImageLink.tl_clientStep s.link extra
    simp only [step, halive, if_true]
    refine ⟨inv.returned, fun _ => inv.connected halive, fun _ => hlink, ?_⟩
    rcases inv.counts with counts | ended
    · obtain ⟨hack, hwaits⟩ := ack_of_linkInv hlink
      refine .inl ⟨counts.endedFirst, ?_, ?_, hack, hwaits, ?_⟩
      · exact htl ▸ counts.frameNo
      · exact htl ▸ counts.images
      · exact htl ▸ counts.ackBuf
    · exact absurd (halive.symm.trans ended.gone) (by decide)

theorem serviceInv_disconnect (inv : s.ServiceInv) (delivered : ℕ) :
    (s.disconnect delivered).ServiceInv := by
  refine ⟨inv.returned, nofun, nofun, ?_⟩
  rcases inv.counts with counts | ended
  · refine .inl { counts with ack := ?_, waits := ?_ }
    · exact (List.take_prefix _ _).trans counts.ack
    · intro hwire
      apply counts.waits
      rintro hempty
      exact hwire (by simp [disconnect, hempty])
  · refine .inr { ended with gone := rfl, no_ack := ?_ }
    simp [disconnect, ended.no_ack]

/-- A new client gets on with the transport that has its mode and its number. -/
theorem linkInv_accepted (state : s.link.tl.state = .sendData) (frameNo : s.link.tl.frameNo = 0) :
    s.handleNewConnections.link.LinkInv where
  wf := PythonClient.wellFormed_init
  phase := .inl ⟨state, ⟨rfl, rfl⟩, rfl, by
    show 0 = s.link.tl.frameNo.toNat
    rw [frameNo]
    rfl⟩

/-- A client that is accepted is fresh if and only if the images sent to the earlier ones are
all acknowledged. -/
theorem ServiceInv.fresh_handleNewConnections_iff (inv : s.ServiceInv) :
    s.handleNewConnections.Fresh ↔ s.traffic.AllAcknowledged := by
  rw [← inv.fresh_iff]
  constructor
  · intro fresh
    have hframeNo : 0 = s.link.tl.frameNo.toNat := fresh.frameNo
    exact ⟨fresh.state, UInt8.toNat_inj.mp hframeNo.symm⟩
  · rintro ⟨hstate, hframeNo⟩
    have hlink := linkInv_accepted hstate hframeNo
    refine ⟨hstate, ?_, fun actions => ?_⟩
    · show 0 = s.link.tl.frameNo.toNat
      rw [hframeNo]
      rfl
    · exact (run_invariant ImageLink.step ImageLink.linkInv_step hlink actions).lockstep

theorem serviceInv_handleNewConnections (inv : s.ServiceInv)
    (acknowledged : s.traffic.AllAcknowledged) : s.handleNewConnections.ServiceInv := by
  obtain ⟨hstate, hframeNo⟩ := inv.fresh_iff.mpr acknowledged
  refine ⟨inv.returned, fun _ => rfl, fun _ => linkInv_accepted hstate hframeNo, ?_⟩
  rcases inv.counts with counts | ended
  · exact .inl { counts with ack := List.nil_prefix, waits := fun hwire => absurd rfl hwire }
  · exact absurd (acknowledged.2.2.symm.trans ended.ended) (by decide)

/-- **One step** whose transfers are whole keeps the invariant, unless it accepts a client
too early. -/
theorem serviceInv_step (inv : s.ServiceInv) {action : ServiceAction}
    (whole : s.Whole action) (accepts : s.AcceptsAcknowledged action) :
    (s.step action).ServiceInv := by
  have hreturned : ¬s.blocked = true := by simp [inv.returned]
  cases action with
  | sendGrayscaleImage image answers =>
    simp only [step, if_neg hreturned]
    exact serviceInv_send inv whole
  | run ready =>
    simp only [step, if_neg hreturned]
    exact serviceInv_run inv whole
  | client extra => exact serviceInv_client inv extra
  | disconnect delivered => exact serviceInv_disconnect inv delivered
  | handleNewConnections =>
    simp only [step, if_neg hreturned]
    exact serviceInv_handleNewConnections inv accepts

/-- The law of one step. -/
theorem survives_iff_acceptsAcknowledged (inv : s.ServiceInv) {action : ServiceAction}
    (whole : s.Whole action) : s.Survives action ↔ s.AcceptsAcknowledged action := by
  have haccept : s.step .handleNewConnections = s.handleNewConnections := by
    simp [step, inv.returned]
  constructor
  · intro survives
    cases action with
    | handleNewConnections =>
      have hfresh := survives.accepted rfl inv.returned
      rw [haccept] at hfresh
      exact inv.fresh_handleNewConnections_iff.mp hfresh
    | _ => trivial
  · intro accepts
    refine ⟨?_, fun halive hwaits => ?_⟩
    · rintro rfl -
      rw [haccept]
      exact inv.fresh_handleNewConnections_iff.mpr accepts
    · exact ((serviceInv_step inv whole accepts).link halive).answerable hwaits

end Steps

/-- **Client changes.** In a run whose transfers are whole, the streaming survives every step
if and only if every client is accepted when what was sent to the earlier ones is
acknowledged, in whole rounds of the frame number. -/
theorem survives_iff_acknowledged (actions : List ServiceAction)
    (whole : Along step Whole start actions) :
    Along step Survives start actions ↔ Along step AcceptsAcknowledged start actions := by
  have hsame : ∀ s action, ServiceInv s → s.Whole action →
      (s.Survives action ↔ s.AcceptsAcknowledged action) :=
    fun _ _ inv hwhole => survives_iff_acceptsAcknowledged inv hwhole
  have hpreserved : ∀ s action, ServiceInv s → s.Whole action → s.Survives action →
      (s.step action).ServiceInv := fun s action inv hwhole survives =>
    serviceInv_step inv hwhole ((hsame s action inv hwhole).mp survives)
  exact along_congr_along hsame hpreserved serviceInv_start whole

/-- A grayscale image goes out whole in the first call of `send` that does not fail, if that
one takes all of it. -/
theorem send_ofGrayscale (image : GrayscaleImage) (failures : ℕ) :
    Server.send true (DataTL.bufToSend (SendableImage.ofGrayscale image).bytes)
        (.replicate failures none ++ [some (bufHeaderSize + grayscaleImageSize)]) =
      .sent (DataTL.bufToSend (SendableImage.ofGrayscale image).bytes) := by
  have hlength : (DataTL.bufToSend (SendableImage.ofGrayscale image).bytes).length =
      bufHeaderSize + grayscaleImageSize := by
    rw [DataTL.bufToSend, Framing.length_encodeFrame]
    exact congrArg _ image.toList_length
  rw [← hlength]
  apply Server.send_of_whole
  · intro hempty
    rw [hempty] at hlength
    exact absurd hlength (by decide)
  · rw [hlength]
    decide

/-- A client that goes with its image unacknowledged leaves `WAIT_FOR_ACK` to the next one. -/
theorem not_survives_of_unacknowledged {image : SendableImage} {answers : List (Option ℕ)}
    (whole : Server.send true (DataTL.bufToSend image.bytes) answers =
      .sent (DataTL.bufToSend image.bytes)) :
    ¬Along step Survives start [.handleNewConnections, .sendGrayscaleImage image answers,
      .disconnect 0, .handleNewConnections] := by
  rintro ⟨-, -, -, survives, -⟩
  have hsent : step (step start .handleNewConnections) (.sendGrayscaleImage image answers) =
      ⟨⟨{ DataTL.init with state := .waitForAck }, DataTL.bufToSend image.bytes, .init, []⟩,
        true, true, false, ⟨1, 0, false⟩⟩ := by
    simp [step, start, handleNewConnections, sendGrayscaleImage, whole, ImageLink.start,
      DataTL.init, DataTL.sendGrayscaleImage]
  rw [hsent] at survives
  cases (survives.accepted rfl rfl).state

/-- The first client goes before the first image, and the second one gets it. -/
theorem survives_of_idle_disconnect :
    Along step Survives start [.handleNewConnections, .disconnect 0, .handleNewConnections,
      .sendGrayscaleImage (.ofGrayscale (.replicate _ 0))
        [none, some (bufHeaderSize + grayscaleImageSize)], .run none] := by
  refine (survives_iff_acknowledged _ ?_).mpr ?_
  · refine ⟨trivial, trivial, trivial, ?_, ?_, trivial⟩
    · intro _ _
      exact send_ofGrayscale _ 1
    · intro chunk hchunk
      rw [received_none] at hchunk
      exact nomatch hchunk
  · refine ⟨?_, trivial, ?_, trivial, trivial, trivial⟩
    · show Traffic.AllAcknowledged ⟨0, 0, false⟩
      decide
    · show Traffic.AllAcknowledged ⟨0, 0, false⟩
      decide

/-- The first client goes while an image is on its way to it. The second one is accepted in
`WAIT_FOR_ACK`. -/
theorem survives_broken_by_disconnect :
    ¬Along step Survives start [.handleNewConnections,
      .sendGrayscaleImage (.ofGrayscale (.replicate _ 0))
        [some (bufHeaderSize + grayscaleImageSize)], .disconnect 0, .handleNewConnections] :=
  not_survives_of_unacknowledged (send_ofGrayscale _ 0)

end ImageService

end PiVision
