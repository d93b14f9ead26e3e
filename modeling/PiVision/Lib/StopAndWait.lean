import Mathlib.Data.List.Count

/-!
# Two-way stop-and-wait

Two parties exchange data over two queues, one each way, and each sends its next data
message only when the last one has been acknowledged. The acknowledgements of one
direction travel with the data of the other, and other messages may travel along.

A party's permission to send is a token. It is in the party's hand, in a message of its
own on the way out, with the peer that is about to answer, or in the answer on the way
back. `token` counts these places, and no move creates or destroys a token.
-/

namespace StopAndWait

/-- What a message is to the protocol. -/
inductive Message
  | data
  | ack
  | other
  deriving DecidableEq, Repr

/-- One party: whether its last data message has been acknowledged, whether it has
checked that and will send, whether it has given its permission up and not sent yet,
and the message it has taken and not dealt with. -/
structure Party where
  ready : Bool
  checked : Bool
  cleared : Bool
  held : Option Message
  deriving DecidableEq, Repr

/-- The two parties and the two queues. -/
structure State where
  a : Party
  b : Party
  ab : List Message
  ba : List Message
  deriving DecidableEq, Repr

/-- The state seen from the other side. -/
def State.swap (s : State) : State := ⟨s.b, s.a, s.ba, s.ab⟩

@[simp] theorem State.swap_swap (s : State) : s.swap.swap = s := rfl

/-- The moves of party `a`. -/
inductive Move : State → State → Prop
  | check (s : State) (ready : s.a.ready = true) :
      Move s { s with a := { s.a with checked := true } }
  | clear (s : State) (checked : s.a.checked = true) (fresh : s.a.cleared = false) :
      Move s { s with a := { s.a with ready := false, checked := false, cleared := true } }
  | send (s : State) (cleared : s.a.cleared = true) :
      Move s { s with a := { s.a with cleared := false }, ab := s.ab ++ [.data] }
  | sendOther (s : State) : Move s { s with ab := s.ab ++ [.other] }
  | take (s : State) (m : Message) (rest : List Message) (first : s.ba = m :: rest)
      (free : s.a.held = none) : Move s { s with a := { s.a with held := some m }, ba := rest }
  | drop (s : State) (holds : s.a.held = some .other) :
      Move s { s with a := { s.a with held := none } }
  | accept (s : State) (holds : s.a.held = some .ack) :
      Move s { s with a := { s.a with ready := true, held := none } }
  | answer (s : State) (holds : s.a.held = some .data) :
      Move s { s with a := { s.a with held := none }, ab := s.ab ++ [.ack] }

/-- A step of the system: a move of either party. -/
def Step (s t : State) : Prop := Move s t ∨ Move s.swap t.swap

/-- Party `a`'s data that the peer has not begun to answer. -/
def unanswered (s : State) : ℕ :=
  s.a.cleared.toNat + s.ab.count .data + s.b.held.toList.count .data

/-- The answers on their way to party `a`. -/
def answers (s : State) : ℕ := s.ba.count .ack + s.a.held.toList.count .ack

/-- The number of party `a`'s tokens. -/
def token (s : State) : ℕ := s.a.ready.toNat + unanswered s + answers s

/-- What holds of party `a` in every reachable state. -/
structure Owns (s : State) : Prop where
  token_eq : token s = 1
  checked : s.a.checked = true → s.a.ready = true

/-- Each party has exactly one token. -/
def Inv (s : State) : Prop := Owns s ∧ Owns s.swap

/-- A party's own moves keep its token. -/
theorem Move.owns {s t : State} (move : Move s t) (inv : Owns s) : Owns t := by
  obtain ⟨htoken, hchecked⟩ := inv
  simp only [token, unanswered, answers] at htoken
  cases move with
  | check ready => exact ⟨htoken, fun _ => ready⟩
  -- the token goes from the party's hand to the message it is about to send
  | clear checked fresh =>
    refine ⟨?_, fun h => by cases h⟩
    rw [hchecked checked, fresh] at htoken
    simp only [token, unanswered, answers, Bool.toNat_false, Bool.toNat_true] at htoken ⊢
    omega
  -- from there into the queue
  | send cleared =>
    refine ⟨?_, hchecked⟩
    rw [cleared] at htoken
    simp only [token, unanswered, answers, List.count_append, List.count_singleton_self,
      Bool.toNat_false, Bool.toNat_true] at htoken ⊢
    omega
  | sendOther => exact ⟨by simpa [token, unanswered, answers] using htoken, hchecked⟩
  | take m rest first free =>
    refine ⟨?_, hchecked⟩
    rw [first, free] at htoken
    cases m <;> simp [token, unanswered, answers] at htoken ⊢ <;> omega
  | drop holds =>
    refine ⟨?_, hchecked⟩
    rw [holds] at htoken
    simpa [token, unanswered, answers] using htoken
  -- an answer in hand becomes the permission to send again
  | accept holds =>
    refine ⟨?_, fun _ => rfl⟩
    rw [holds] at htoken
    simp [token, unanswered, answers] at htoken ⊢
    omega
  | answer holds =>
    refine ⟨?_, hchecked⟩
    rw [holds] at htoken
    simpa [token, unanswered, answers] using htoken

/-- The other party's moves keep a party's token. -/
theorem Move.owns_swap {s t : State} (move : Move s t) (inv : Owns s.swap) : Owns t.swap := by
  obtain ⟨htoken, hchecked⟩ := inv
  simp only [token, unanswered, answers, State.swap] at htoken hchecked
  cases move with
  | check | clear => exact ⟨htoken, hchecked⟩
  | send => exact ⟨by simpa [token, unanswered, answers, State.swap] using htoken, hchecked⟩
  | sendOther => exact ⟨by simpa [token, unanswered, answers, State.swap] using htoken, hchecked⟩
  | take m rest first free =>
    refine ⟨?_, hchecked⟩
    rw [first, free] at htoken
    cases m <;> simp [token, unanswered, answers, State.swap] at htoken ⊢ <;> omega
  -- what the other party drops or accepts was not data, so it carried no token of this one
  | drop holds | accept holds =>
    refine ⟨?_, hchecked⟩
    rw [holds] at htoken
    simpa [token, unanswered, answers, State.swap] using htoken
  -- the token goes from the data in the other party's hand to the answer in the queue
  | answer holds =>
    refine ⟨?_, hchecked⟩
    rw [holds] at htoken
    simp [token, unanswered, answers, State.swap] at htoken ⊢
    omega

/-- **No move creates or destroys a token.** -/
theorem Step.inv {s t : State} (step : Step s t) (inv : Inv s) : Inv t := by
  obtain ⟨ha, hb⟩ := inv
  rcases step with move | move
  · exact ⟨move.owns ha, move.owns_swap hb⟩
  · exact ⟨move.owns_swap ha, move.owns hb⟩

/-- With nothing of its own unanswered and no answer on the way, a party may send. -/
theorem Owns.ready_of_idle {s : State} (inv : Owns s) (sent : unanswered s = 0)
    (none : answers s = 0) : s.a.ready = true := by
  have htoken := inv.token_eq
  unfold token at htoken
  cases hready : s.a.ready with
  | true => rfl
  | false =>
    rw [hready] at htoken
    simp only [Bool.toNat_false] at htoken
    omega

/-- An answer finds the party it is for without permission to send. -/
theorem Owns.not_ready_of_answer {s : State} (inv : Owns s) (answered : 0 < answers s) :
    s.a.ready = false := by
  have htoken := inv.token_eq
  unfold token at htoken
  cases hready : s.a.ready with
  | false => rfl
  | true =>
    rw [hready] at htoken
    simp only [Bool.toNat_true] at htoken
    omega

end StopAndWait
