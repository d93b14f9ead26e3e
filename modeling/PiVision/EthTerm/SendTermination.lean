import PiVision.EthTerm.Send

/-!
# Whether a send ends

`SendPayload` leaves its loop when eleven calls of `send` in a row have failed. A pending
error counts for nothing there: it clears `active`, and the loop goes on, where `Receive`
leaves its own. So a send that has bytes left when nothing but pending errors comes any more
never ends.
-/

namespace PiVision

open ScriptLoop

namespace EthTermConnection

/-- How many bytes these attempts accept of a payload that does not end before. -/
def acceptedBytes (outcomes : List SendOutcome) : ℕ :=
  (outcomes.map fun
    | .accepted k => min (k + 1) 4096
    | _ => 0).sum

/-- The calls of `send` that have failed since the last one that has accepted bytes. -/
def failuresInRow (outcomes : List SendOutcome) : ℕ :=
  outcomes.foldl (fun
    | n, .failed => n + 1
    | n, .pendingError => n
    | _, .accepted _ => 0) 0

/-- From some attempt on all of them find a pending error, before which fewer bytes have been
accepted than the payload has, and never more than ten calls of `send` in a row have failed. -/
def Starved (size : ℕ) (outcomes : ℕ → SendOutcome) : Prop :=
  ∃ n, (∀ m, n ≤ m → outcomes m = .pendingError) ∧
    acceptedBytes (firstAnswers outcomes n) < size ∧
      ∀ m ≤ n, failuresInRow (firstAnswers outcomes m) ≤ maxSendAttempts

/-- The call returns, with the payload on the stream behind what was there, or with `active`
cleared. -/
def EndsDefinite (data : PiVisionData) (conn : EthTermConnection) (stream : List UInt8)
    (outcomes : ℕ → SendOutcome) : Prop :=
  ∃ s', Returns (sendPayload data) outcomes ⟨conn, stream, false, 0, 0⟩ s' ∧
    (s'.stream = stream ++ data.bytes ∨ s'.conn.active = false)

section Attempts

variable {data : PiVisionData} {script : List SendOutcome} {outcome : SendOutcome}
  {outcomes : ℕ → SendOutcome} {s t : SendState}

theorem acceptedBytes_concat (script : List SendOutcome) (outcome : SendOutcome) :
    acceptedBytes (script ++ [outcome]) = acceptedBytes script + acceptedBytes [outcome] := by
  simp [acceptedBytes]

/-- A pending error is not counted. -/
theorem counts_pendingError (script : List SendOutcome) :
    acceptedBytes (script ++ [.pendingError]) = acceptedBytes script ∧
      failuresInRow (script ++ [.pendingError]) = failuresInRow script := by
  simp [acceptedBytes, failuresInRow]

/-- A call that waits for its next attempt: its locals are what the attempts so far say. -/
structure Tracks (data : PiVisionData) (script : List SendOutcome) (s : SendState) : Prop where
  sent : s.numBytesSent = acceptedBytes script
  attempts : s.numAttempts = failuresInRow script
  left : acceptedBytes script < data.size
  kept : failuresInRow script ≤ maxSendAttempts

/-- The locals behind a round that goes on. -/
theorem Tracks.sendBody_eq (tracks : Tracks data script s)
    (left : acceptedBytes (script ++ [outcome]) < data.size)
    (kept : failuresInRow (script ++ [outcome]) ≤ maxSendAttempts) :
    ∃ t, sendBody data s outcome = .next t ∧ Tracks data (script ++ [outcome]) t := by
  have hsent := tracks.sent
  have hattempts := tracks.attempts
  have hless := tracks.left
  cases outcome with
  | pendingError =>
    obtain ⟨hbytes, hfailures⟩ := counts_pendingError script
    have hlimit : ¬maxSendAttempts < s.numAttempts := by
      rw [hattempts]
      exact Nat.not_lt.mpr tracks.kept
    refine ⟨{ s with conn := s.conn.deactivate }, by simp [sendBody, hlimit], ?_, ?_, left, kept⟩
    · rw [hbytes, hsent]
    · rw [hfailures, hattempts]
  | failed =>
    have hfailures : failuresInRow (script ++ [.failed]) = s.numAttempts + 1 := by
      simp [failuresInRow, hattempts]
    have hbytes : acceptedBytes (script ++ [.failed]) = s.numBytesSent := by
      simp [acceptedBytes, hsent]
    have hlimit : ¬maxSendAttempts < s.numAttempts + 1 := by omega
    exact ⟨{ s with numAttempts := s.numAttempts + 1 }, by simp [sendBody, hlimit],
      hbytes.symm, hfailures.symm, left, kept⟩
  | accepted k =>
    -- bytes are left behind the attempt, so that it has not come to the end of the payload
    have hbytes : acceptedBytes (script ++ [.accepted k]) =
        s.numBytesSent + min (k + 1) 4096 := by
      simp [acceptedBytes, hsent]
    have hlength : ((sendBuffer data s).take (k + 1)).length = min (k + 1) 4096 := by
      rw [List.length_take, length_sendBuffer]
      omega
    refine ⟨_, by simp only [sendBody]; rfl, ?_, ?_, left, kept⟩
    · rw [hbytes, ← hlength]
    · simp [failuresInRow]

/-- A round that goes on to another one has left bytes, and has not come to the limit. -/
theorem Tracks.bounds_of_next (tracks : Tracks data script s)
    (next : sendBody data s outcome = .next t) (more : sendGuard data t = true) :
    acceptedBytes (script ++ [outcome]) < data.size ∧
      failuresInRow (script ++ [outcome]) ≤ maxSendAttempts := by
  have hsent := tracks.sent
  have hattempts := tracks.attempts
  have hmore : t.numBytesSent < data.size := by simpa [sendGuard] using more
  cases outcome with
  | pendingError =>
    obtain ⟨hbytes, hfailures⟩ := counts_pendingError script
    rw [hbytes, hfailures]
    exact ⟨tracks.left, tracks.kept⟩
  | failed =>
    have hlimit : ¬maxSendAttempts < s.numAttempts + 1 := by
      intro hlimit
      simp [sendBody, hlimit] at next
    refine ⟨by simpa [acceptedBytes] using tracks.left, ?_⟩
    simp only [failuresInRow, List.foldl_append, List.foldl_cons, List.foldl_nil]
    rw [hattempts, failuresInRow] at hlimit
    omega
  | accepted k =>
    have hnext : t.numBytesSent = s.numBytesSent + ((sendBuffer data s).take (k + 1)).length := by
      simp only [sendBody, Flow.next.injEq] at next
      rw [← next]
    rw [List.length_take, length_sendBuffer] at hnext
    refine ⟨?_, by simp [failuresInRow]⟩
    have hbytes : acceptedBytes (script ++ [.accepted k]) =
        s.numBytesSent + min (k + 1) 4096 := by
      simp [acceptedBytes, hsent]
    omega

end Attempts

/-! ## Calls that wait -/

section Calls

variable {data : PiVisionData} {outcomes : ℕ → SendOutcome} {s t : SendState}

/-- The locals of a call that waits. -/
theorem tracks_of_waiting {n : ℕ}
    (waiting : sendPayload data (firstAnswers outcomes n) s = .waiting t) :
    Tracks data (firstAnswers outcomes n) t := by
  induction n generalizing t with
  | zero =>
    obtain ⟨hguard, -⟩ := loop_append_of_waiting [] waiting
    obtain rfl := eq_of_waiting_nil waiting
    exact ⟨rfl, rfl, of_decide_eq_true hguard, Nat.zero_le _⟩
  | succ n ih =>
    have hmore := (loop_append_of_waiting [] waiting).1
    rw [firstAnswers_concat] at waiting ⊢
    cases hrun : sendPayload data (firstAnswers outcomes n) s with
    | returned u rest =>
      rw [sendPayload, loop_append_of_returned _ hrun] at waiting
      cases waiting
    | waiting u =>
      have htracks := ih hrun
      rcases loop_concat_of_waiting hrun (outcomes n) with ⟨v, hbody, h | h⟩ | ⟨v, -, h⟩
      · obtain rfl : v = t := Ending.waiting.inj (h.symm.trans waiting)
        obtain ⟨hleft, hkept⟩ := htracks.bounds_of_next hbody hmore
        obtain ⟨w, hnext, hw⟩ := htracks.sendBody_eq hleft hkept
        obtain rfl : v = w := Flow.next.inj (hbody.symm.trans hnext)
        exact hw
      · exact nomatch h.symm.trans waiting
      · exact nomatch h.symm.trans waiting

/-- A call waits as long as bytes are left and the limit has not been passed. -/
theorem waiting_of_bounds {n : ℕ} (left : acceptedBytes (firstAnswers outcomes n) < data.size)
    (kept : ∀ m ≤ n, failuresInRow (firstAnswers outcomes m) ≤ maxSendAttempts) (s : SendState) :
    ∃ t, sendPayload data (firstAnswers outcomes n) s = .waiting t := by
  induction n with
  | zero =>
    have hguard : sendGuard data s.enter = true := decide_eq_true left
    exact ⟨s.enter, by simp [sendPayload, loop, hguard]⟩
  | succ n ih =>
    rw [firstAnswers_concat, acceptedBytes_concat] at left
    obtain ⟨u, hu⟩ := ih (by omega) fun m hm => kept m (Nat.le_succ_of_le hm)
    have hkept := kept (n + 1) (Nat.le_refl _)
    rw [firstAnswers_concat] at hkept ⊢
    rw [← acceptedBytes_concat] at left
    obtain ⟨t, hnext, ht⟩ := (tracks_of_waiting hu).sendBody_eq left hkept
    have hguard : sendGuard data t = true := by
      rw [sendGuard, ht.sent]
      exact decide_eq_true ht.left
    obtain ⟨huguard, hmore⟩ := loop_append_of_waiting [outcomes n] hu
    refine ⟨t, ?_⟩
    rw [sendPayload, hmore, loop_cons_next huguard hnext]
    simp [loop, hguard]

/-- A call that waits for ever is starved: an accepting attempt lowers the bytes left, and a
failing call of `send` those that may still fail. -/
theorem starved_of_waits (waits : WaitsForever (sendPayload data) outcomes s) :
    Starved data.size outcomes := by
  obtain ⟨n, hidle⟩ : ∃ n, ∀ m, n ≤ m → outcomes m = .pendingError := by
    refine eventually_idle_of_waits (fun s =>
      (maxSendAttempts + 2) * (data.size - s.numBytesSent) +
        (maxSendAttempts + 1 - s.numAttempts)) (· = .pendingError) ?_ waits
    intro s outcome s' hguard hbody
    have hless : s.numBytesSent < data.size := by simpa [sendGuard] using hguard
    cases outcome with
    | pendingError =>
      refine .inr ⟨rfl, ?_⟩
      by_cases hlimit : maxSendAttempts < s.numAttempts
      · simp [sendBody, hlimit] at hbody
      · simp only [sendBody, if_true, hlimit, if_false, Flow.next.injEq] at hbody
        rw [← hbody]
    | failed =>
      refine .inl ?_
      by_cases hlimit : maxSendAttempts < s.numAttempts + 1
      · simp [sendBody, hlimit] at hbody
      · simp only [sendBody, reduceCtorEq, if_false, hlimit, Flow.next.injEq] at hbody
        rw [← hbody]
        simp only
        omega
    | accepted k =>
      refine .inl ?_
      have hlength : 0 < ((sendBuffer data s).take (k + 1)).length := by
        rw [List.length_take, length_sendBuffer]
        omega
      simp only [sendBody, Flow.next.injEq] at hbody
      rw [← hbody]
      simp only [maxSendAttempts]
      omega
  refine ⟨n, hidle, ?_, fun m hm => ?_⟩
  · obtain ⟨t, ht⟩ := waits n
    exact (tracks_of_waiting ht).left
  · obtain ⟨t, ht⟩ := waits m
    exact (tracks_of_waiting ht).kept

/-- Pending errors change nothing in a call that waits. -/
theorem waits_of_starved (starved : Starved data.size outcomes) (s : SendState) :
    WaitsForever (sendPayload data) outcomes s := by
  obtain ⟨n, hidle, hleft, hkept⟩ := starved
  have hcounts : ∀ m, n ≤ m →
      acceptedBytes (firstAnswers outcomes m) = acceptedBytes (firstAnswers outcomes n) ∧
        failuresInRow (firstAnswers outcomes m) = failuresInRow (firstAnswers outcomes n) := by
    intro m hm
    induction m, hm using Nat.le_induction with
    | base => exact ⟨rfl, rfl⟩
    | succ m hm ih =>
      rw [firstAnswers_concat, hidle m hm]
      obtain ⟨hbytes, hfailures⟩ := counts_pendingError (firstAnswers outcomes m)
      exact ⟨hbytes.trans ih.1, hfailures.trans ih.2⟩
  have hkeeps : ∀ m, failuresInRow (firstAnswers outcomes m) ≤ maxSendAttempts := by
    intro m
    rcases Nat.le_total m n with hm | hm
    · exact hkept m hm
    · rw [(hcounts m hm).2]
      exact hkept n (Nat.le_refl n)
  intro m
  refine waiting_of_bounds ?_ (fun k _ => hkeeps k) s
  rcases Nat.le_total n m with hm | hm
  · rwa [(hcounts m hm).1]
  · -- fewer attempts accept no more
    refine Nat.lt_of_le_of_lt ?_ hleft
    obtain ⟨k, rfl⟩ := Nat.exists_eq_add_of_le hm
    rw [firstAnswers_add]
    simp [acceptedBytes]

/-- A call that has given up has cleared `active`. -/
def Quits (s : SendState) : Prop := s.gaveUp = true → s.conn.active = false

theorem quits_sendBody (s : SendState) (outcome : SendOutcome) (quits : Quits s) :
    Quits (sendBody data s outcome).state := by
  rcases sendBody_cases data s outcome with
    ⟨k, -, h⟩ | ⟨-, n, h⟩ | ⟨-, conn, n, hconn, h⟩ <;> rw [h]
  · exact quits
  · exact fun _ => rfl
  · intro hgave
    rcases hconn with rfl | rfl
    · exact quits hgave
    · rfl

/-- A call that returns has sent all of the payload, or cleared `active`. -/
theorem definite_of_returned {conn : EthTermConnection} {stream : List UInt8}
    {script rest : List SendOutcome}
    (returned : sendPayload data script ⟨conn, stream, false, 0, 0⟩ = .returned t rest) :
    t.stream = stream ++ data.bytes ∨ t.conn.active = false := by
  have hquits : Quits (sendPayload data script ⟨conn, stream, false, 0, 0⟩).state :=
    loop_invariant (fun s a _ => quits_sendBody s a) script nofun
  rw [returned] at hquits
  cases hgave : t.gaveUp with
  | true => exact .inr (hquits hgave)
  | false => exact .inl ((puts_sendPayload data).whole script _ t rest returned hgave)

/-- **A send ends with a definite result** unless it is starved. -/
theorem endsDefinite_iff (data : PiVisionData) (conn : EthTermConnection) (stream : List UInt8)
    (outcomes : ℕ → SendOutcome) :
    EndsDefinite data conn stream outcomes ↔ ¬Starved data.size outcomes := by
  constructor
  · rintro ⟨s', hreturns, -⟩ starved
    exact (waits_of_starved starved _).not_returns s' hreturns
  · intro fed
    rcases loop_returns_or_waits (sendGuard data) (sendBody data) outcomes
      (SendState.enter ⟨conn, stream, false, 0, 0⟩) with ⟨s', hreturns⟩ | hwaits
    · obtain ⟨n, hn⟩ := hreturns
      exact ⟨s', ⟨n, hn⟩, definite_of_returned (hn [])⟩
    · exact absurd (starved_of_waits (s := ⟨conn, stream, false, 0, 0⟩) hwaits) fed

/-- One byte, and a pending error at every attempt. -/
theorem not_endsDefinite :
    ¬EndsDefinite (.ofBytes [7]) (.new .server 0 0) [] fun _ => .pendingError := by
  rintro ⟨s', hreturns, -⟩
  refine (waits_of_starved ⟨0, fun _ _ => rfl, by decide, fun m hm => ?_⟩ _).not_returns s' hreturns
  rw [Nat.le_zero.mp hm]
  exact Nat.zero_le _

end Calls

end EthTermConnection

end PiVision
