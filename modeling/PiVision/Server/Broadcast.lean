import PiVision.Camera.Stream
import PiVision.Lib.Iteration
import Mathlib.Data.List.Lattice
import Mathlib.Logic.Function.Basic

/-!
# The broadcast of the Python server

`PiVisServer.send` goes over its connections, sends each the length of the data and the
data, and removes a connection from the list behind an exception. The list is the one it
goes over, so the connection behind one that is removed is skipped.

A connection is an object of its own: the list has no two that are equal.
-/

namespace PiVision

open LittleEndian Iteration

/-- What `sendall` comes to: it returns, or raises an exception with so many bytes sent. -/
inductive Sendall
  | returns
  | raises (sent : ℕ)
  deriving DecidableEq, Repr

/-- The outcomes of the calls of `sendall` on a connection, for the length and the data. -/
structure SendOutcomes where
  size : Sendall
  data : Sendall

/-- Both calls return, if they are made. -/
def SendOutcomes.Succeed (o : SendOutcomes) : Prop := o.size = .returns ∧ o.data = .returns

/-- `PiVisServer`: its connections, and what each has been sent. -/
structure PythonServer (C : Type*) where
  connections : List C
  nodup : connections.Nodup
  streams : C → List UInt8

namespace PythonServer

/-- `len(data).to_bytes(4, byteorder='little')`, which raises an exception if the length has
more bytes. -/
def dataSize (data : List UInt8) : Option (List UInt8) :=
  if data.length < 2 ^ 32 then some (leBytes 4 data.length) else none

/-- The body of `try` for a connection: what is sent, and whether an exception is raised. -/
def attempt (data : List UInt8) (o : SendOutcomes) : List UInt8 × Bool :=
  match dataSize data with
  | none => ([], true)
  | some dataSize =>
    match o.size with
    | .raises sent => (dataSize.take sent, true)
    | .returns =>
      match o.data with
      | .raises sent => (dataSize ++ data.take sent, true)
      | .returns => (dataSize ++ data, false)

variable {C : Type*} [DecidableEq C]

/-- A round of the loop. -/
def sendRound (data : List UInt8) (outcomes : C → SendOutcomes) (s : PythonServer C) (c : C) :
    PythonServer C where
  connections :=
    if (attempt data (outcomes c)).2 then s.connections.erase c else s.connections
  nodup := by
    split
    · exact s.nodup.erase c
    · exact s.nodup
  streams := Function.update s.streams c (s.streams c ++ (attempt data (outcomes c)).1)

/-- `send`: the loop over the list, which has no more rounds than the list has connections. -/
def send (s : PythonServer C) (data : List UInt8) (outcomes : C → SendOutcomes) :
    PythonServer C :=
  iterate connections (sendRound data outcomes) s.connections.length 0 s

/-! ## The connections that are visited -/

section Rounds

variable {data : List UInt8} {outcomes : C → SendOutcomes} {s : PythonServer C} {c : C}

/-- The connections on which an exception is raised. -/
def fails (data : List UInt8) (outcomes : C → SendOutcomes) (c : C) : Bool :=
  (attempt data (outcomes c)).2

theorem send_eq_foldl (s : PythonServer C) (data : List UInt8) (outcomes : C → SendOutcomes) :
    s.send data outcomes =
        (visited (fails data outcomes) s.connections).foldl (sendRound data outcomes) s ∧
      (s.send data outcomes).connections = kept (fails data outcomes) s.connections := by
  have hahead : s.connections = [] ++ s.connections := rfl
  obtain ⟨hloop, hkept⟩ := iterate_eq_foldl connections (sendRound data outcomes)
    (fun s c => rfl) s.connections hahead s.nodup (Nat.le_refl _)
  exact ⟨hloop, (congrArg connections hloop).trans hkept⟩

/-- Rounds for other connections leave a stream alone. -/
theorem streams_foldl_of_not_mem {cs : List C} (others : c ∉ cs) :
    (cs.foldl (sendRound data outcomes) s).streams c = s.streams c := by
  induction cs generalizing s with
  | nil => rfl
  | cons b cs ih =>
    rw [List.mem_cons, not_or] at others
    rw [List.foldl_cons, ih others.2]
    exact Function.update_of_ne others.1 _ _

/-- A connection that is visited once is sent what one round sends it. -/
theorem streams_foldl_of_mem {cs : List C} (nodup : cs.Nodup) (mem : c ∈ cs) :
    (cs.foldl (sendRound data outcomes) s).streams c =
      s.streams c ++ (attempt data (outcomes c)).1 := by
  induction cs generalizing s with
  | nil => exact absurd mem List.not_mem_nil
  | cons b cs ih =>
    rw [List.nodup_cons] at nodup
    rw [List.foldl_cons]
    rcases List.mem_cons.mp mem with rfl | hlater
    · rw [streams_foldl_of_not_mem nodup.1]
      exact Function.update_self _ _ _
    · have hother : c ≠ b := fun heq => nodup.1 (heq ▸ hlater)
      rw [ih nodup.2 hlater]
      exact congrArg (· ++ _) (Function.update_of_ne hother _ _)

theorem attempt_of_long (long : ¬data.length < 2 ^ 32) (o : SendOutcomes) :
    attempt data o = ([], true) := by
  rw [attempt, dataSize, if_neg long]

theorem attempt_of_succeed (short : data.length < 2 ^ 32) {o : SendOutcomes}
    (succeed : o.Succeed) : attempt data o = (leBytes 4 data.length ++ data, false) := by
  rw [attempt, dataSize, if_pos short, succeed.1, succeed.2]

omit [DecidableEq C] in
/-- Unless its length has more than four bytes, no exception is raised if both calls return. -/
theorem fails_eq_false_iff (short : data.length < 2 ^ 32) :
    ¬fails data outcomes c = true ↔ (outcomes c).Succeed := by
  constructor
  · intro hgood
    rw [fails, attempt, dataSize, if_pos short] at hgood
    cases hsize : (outcomes c).size with
    | raises sent => simp [hsize] at hgood
    | returns =>
      cases hdata : (outcomes c).data with
      | raises sent => simp [hsize, hdata] at hgood
      | returns => exact ⟨hsize, hdata⟩
  · intro succeed
    rw [fails, attempt_of_succeed short succeed]
    exact Bool.false_ne_true

/-- A connection gets what is meant for it if it is visited and the length has four bytes. -/
theorem streams_send_eq_iff (succeed : (outcomes c).Succeed) :
    (s.send data outcomes).streams c = s.streams c ++ (leBytes 4 data.length ++ data) ↔
      data.length < 2 ^ 32 ∧ c ∈ visited (fails data outcomes) s.connections := by
  have hnodup := (visited_sublist (fails data outcomes) s.connections).nodup s.nodup
  have hnothing : s.streams c ≠ s.streams c ++ (leBytes 4 data.length ++ data) := by
    intro heq
    have hlength := congrArg List.length heq
    simp only [List.length_append, length_leBytes] at hlength
    omega
  rw [(send_eq_foldl s data outcomes).1]
  by_cases hvisited : c ∈ visited (fails data outcomes) s.connections
  · rw [streams_foldl_of_mem hnodup hvisited]
    by_cases short : data.length < 2 ^ 32
    · rw [attempt_of_succeed short succeed]
      exact iff_of_true rfl ⟨short, hvisited⟩
    · rw [attempt_of_long short, List.append_nil]
      exact iff_of_false hnothing fun h => short h.1
  · rw [streams_foldl_of_not_mem hvisited]
    exact iff_of_false hnothing fun h => hvisited h.2

/-- **The broadcast** reaches every connection whose calls return, and leaves those without
an exception, if and only if no connection but the last raises one. -/
theorem send_reaches_iff (s : PythonServer C) (data : List UInt8) (outcomes : C → SendOutcomes) :
    ((∀ c ∈ s.connections, (outcomes c).Succeed →
        (s.send data outcomes).streams c =
          s.streams c ++ (leBytes 4 data.length ++ data)) ∧
      (s.send data outcomes).connections =
        s.connections.filter fun c => !fails data outcomes c) ↔
    (data.length < 2 ^ 32 ∨ ∀ c ∈ s.connections, ¬(outcomes c).Succeed) ∧
      ∀ c ∈ s.connections.dropLast, ¬fails data outcomes c = true := by
  obtain ⟨hloop, hconnections⟩ := send_eq_foldl s data outcomes
  rw [hconnections, ← visited_and_kept_iff s.nodup, ← and_assoc]
  refine and_congr_left fun _ => ?_
  have hreached : (∀ c ∈ s.connections, (outcomes c).Succeed →
      (s.send data outcomes).streams c = s.streams c ++ (leBytes 4 data.length ++ data)) ↔
        ∀ c ∈ s.connections, (outcomes c).Succeed →
          data.length < 2 ^ 32 ∧ c ∈ visited (fails data outcomes) s.connections :=
    forall₂_congr fun c _ => forall_congr' fun succeed => streams_send_eq_iff succeed
  rw [hreached]
  by_cases short : data.length < 2 ^ 32
  · rw [and_iff_right (.inl short)]
    refine forall₂_congr fun c _ => ?_
    rw [fails_eq_false_iff short, and_iff_right short]
  · have hfails (c : C) : fails data outcomes c = true := by rw [fails, attempt_of_long short]
    rw [or_iff_right short, and_iff_left fun c _ hgood => absurd (hfails c) hgood]
    constructor
    · exact fun hall c hc succeed => short (hall c hc succeed).1
    · exact fun hnone c hc succeed => absurd succeed (hnone c hc)

/-- The first of two connections is gone. -/
def firstGone (c : ℕ) : SendOutcomes :=
  if c = 0 then ⟨.raises 0, .returns⟩ else ⟨.returns, .returns⟩

/-- Behind it, the second one is sent nothing. -/
theorem send_skips_next :
    (firstGone 1).Succeed ∧
      (send ⟨[0, 1], by decide, fun _ => []⟩ [7] firstGone).streams 1 ≠ [1, 0, 0, 0, 7] :=
  ⟨⟨rfl, rfl⟩, by decide⟩

end Rounds

end PythonServer

end PiVision
