import PiVision.Lib.Run

/-!
# Machines with a history

An event handler maps a state and an event to a new state and the events it raises,
or to nothing where it has no defined outcome. `record` makes it a machine that keeps
the log of what it handled and raised, so that a property of a whole history is a
property of a state of that machine; behind an event without an outcome it stands
still.
-/

namespace Machine

/-- A handler's state, absent behind an event without an outcome, and its log: each
event handled with the events raised meanwhile. -/
structure Recorded (σ α β : Type*) where
  state : Option σ
  log : List (α × List β)

variable {σ α β : Type*}

/-- The events handled, in order. -/
def handled (log : List (α × List β)) : List α := log.map Prod.fst

/-- The events raised, in order. -/
def raised (log : List (α × List β)) : List β := log.flatMap Prod.snd

@[simp] theorem handled_nil : handled ([] : List (α × List β)) = [] := rfl

@[simp] theorem raised_nil : raised ([] : List (α × List β)) = [] := rfl

@[simp] theorem handled_append (log log' : List (α × List β)) :
    handled (log ++ log') = handled log ++ handled log' := List.map_append

@[simp] theorem raised_append (log log' : List (α × List β)) :
    raised (log ++ log') = raised log ++ raised log' := List.flatMap_append

@[simp] theorem handled_singleton (a : α) (out : List β) : handled [(a, out)] = [a] := rfl

@[simp] theorem raised_singleton (a : α) (out : List β) : raised [(a, out)] = out := by
  simp [raised]

variable (handle : σ → α → Option (σ × List β))

/-- One event: handled and put on the log, or without an outcome. -/
def record (r : Recorded σ α β) (a : α) : Recorded σ α β :=
  match r.state with
  | none => r
  | some s =>
    match handle s a with
    | none => { r with state := none }
    | some (s', out) => ⟨some s', r.log ++ [(a, out)]⟩

namespace Recorded

/-- Before the first event. -/
def start (s : σ) : Recorded σ α β := ⟨some s, []⟩

/-- A relation between the handler's state and its log, while there is a state. -/
def Holds (Inv : σ → List (α × List β) → Prop) (r : Recorded σ α β) : Prop :=
  ∀ s, r.state = some s → Inv s r.log

end Recorded

variable {handle} {r : Recorded σ α β} {s s' : σ} {a : α} {out : List β}

theorem record_of_none (stopped : r.state = none) : record handle r a = r := by
  simp [record, stopped]

theorem record_of_undefined (live : r.state = some s) (outcome : handle s a = none) :
    record handle r a = { r with state := none } := by
  simp [record, live, outcome]

theorem record_of_some (live : r.state = some s) (outcome : handle s a = some (s', out)) :
    record handle r a = ⟨some s', r.log ++ [(a, out)]⟩ := by
  simp [record, live, outcome]

/-- A state behind an event comes from a state before it, by the handler. -/
theorem state_record_eq_some (live : (record handle r a).state = some s') :
    ∃ s out, r.state = some s ∧ handle s a = some (s', out) ∧
      (record handle r a).log = r.log ++ [(a, out)] := by
  cases hstate : r.state with
  | none =>
    rw [record_of_none hstate, hstate] at live
    cases live
  | some s =>
    cases houtcome : handle s a with
    | none =>
      rw [record_of_undefined hstate houtcome] at live
      cases live
    | some next =>
      obtain ⟨t, out⟩ := next
      rw [record_of_some hstate houtcome] at live ⊢
      obtain rfl := Option.some.inj live
      exact ⟨s, out, rfl, houtcome, rfl⟩

/-- What each defined outcome preserves, each event preserves. -/
theorem Recorded.Holds.record {Inv : σ → List (α × List β) → Prop} (holds : r.Holds Inv)
    (preserved : ∀ s s' out, r.state = some s → Inv s r.log → handle s a = some (s', out) →
      Inv s' (r.log ++ [(a, out)])) :
    (Machine.record handle r a).Holds Inv := by
  intro s' live
  obtain ⟨s, out, hstate, houtcome, hlog⟩ := state_record_eq_some live
  rw [hlog]
  exact preserved s s' out hstate (holds s hstate) houtcome

theorem run_of_none (stopped : r.state = none) (events : List α) :
    run (record handle) r events = r := by
  induction events with
  | nil => rfl
  | cons a events ih => rw [run_cons, record_of_none stopped, ih]

/-- What holds of a handler at its start and is preserved by each outcome holds of its
state and its log after every history. -/
theorem holds_run {Inv : σ → List (α × List β) → Prop}
    (preserved : ∀ s log a s' out, Inv s log → handle s a = some (s', out) →
      Inv s' (log ++ [(a, out)]))
    (initially : Inv s []) (events : List α) :
    (run (record handle) (Recorded.start s) events).Holds Inv := by
  have hstep : ∀ r a, Recorded.Holds Inv r → Recorded.Holds Inv (record handle r a) :=
    fun r a holds => holds.record fun s s' out _ => preserved s r.log a s' out
  have hstart : Recorded.Holds Inv (Recorded.start s : Recorded σ α β) := by
    rintro _ ⟨⟩
    exact initially
  exact run_invariant (record handle) hstep hstart events

/-- While a handler has a state it has handled every event delivered. -/
theorem handled_run (events : List α)
    (live : (run (record handle) r events).state = some s') :
    handled (run (record handle) r events).log = handled r.log ++ events := by
  induction events generalizing r with
  | nil => simp
  | cons a events ih =>
    rw [run_cons] at live ⊢
    rw [ih live]
    -- had the first event no outcome, the machine would have stood still behind it
    cases hnext : (record handle r a).state with
    | none =>
      rw [run_of_none hnext, hnext] at live
      cases live
    | some t =>
      obtain ⟨-, out, -, -, hlog⟩ := state_record_eq_some hnext
      simp [hlog]

/-- Where an invariant and a condition on the next event leave every event an outcome, a
run that meets the condition never loses its state. -/
theorem state_run_ne_none (Inv : σ → List (α × List β) → Prop)
    {P : Recorded σ α β → α → Prop}
    (preserved : ∀ s log a s' out, Inv s log → handle s a = some (s', out) →
      Inv s' (log ++ [(a, out)]))
    (defined : ∀ s log a, Inv s log → P ⟨some s, log⟩ a → handle s a ≠ none)
    (initially : Inv s []) {events : List α}
    (along : Along (record handle) P (Recorded.start s) events) :
    (run (record handle) (Recorded.start s) events).state ≠ none := by
  have hstep : ∀ r a, r.state ≠ none ∧ Recorded.Holds Inv r → P r a →
      (record handle r a).state ≠ none ∧ Recorded.Holds Inv (record handle r a) := by
    rintro ⟨state, log⟩ a ⟨hlive, hholds⟩ hmeets
    obtain ⟨s, rfl⟩ := Option.ne_none_iff_exists'.mp hlive
    obtain ⟨⟨s', out⟩, houtcome⟩ :=
      Option.ne_none_iff_exists'.mp (defined s log a (hholds s rfl) hmeets)
    have hnext : record handle ⟨some s, log⟩ a = ⟨some s', log ++ [(a, out)]⟩ :=
      record_of_some rfl houtcome
    refine ⟨by simp [hnext], ?_⟩
    exact hholds.record fun s s' out _ => preserved s log a s' out
  have hstart : Recorded.Holds Inv (Recorded.start s : Recorded σ α β) := by
    rintro _ ⟨⟩
    exact initially
  exact (run_invariant_along hstep ⟨Option.some_ne_none s, hstart⟩ along).1

/-- An event that is raised only on the way into a condition that lasts is raised at most
once, and has not been raised while the condition does not hold. -/
theorem raised_once [BEq β] [LawfulBEq β] (Done : σ → Prop) {x : β}
    (raises : ∀ s a s' out, handle s a = some (s', out) → x ∈ out →
      ¬ Done s ∧ Done s' ∧ out.count x = 1)
    (lasts : ∀ s a s' out, handle s a = some (s', out) → Done s → Done s')
    (log : List (α × List β)) (houtcome : handle s a = some (s', out))
    (once : (raised log).count x ≤ 1 ∧ (x ∈ raised log → Done s)) :
    (raised (log ++ [(a, out)])).count x ≤ 1 ∧ (x ∈ raised (log ++ [(a, out)]) → Done s') := by
  obtain ⟨hcount, hdone⟩ := once
  rw [raised_append, raised_singleton, List.count_append, List.mem_append]
  by_cases hmem : x ∈ out
  · obtain ⟨hnot, hnext, hone⟩ := raises s a s' out houtcome hmem
    have hfirst : x ∉ raised log := fun hbefore => hnot (hdone hbefore)
    rw [List.count_eq_zero_of_not_mem hfirst, hone]
    exact ⟨Nat.le_refl 1, fun _ => hnext⟩
  · rw [List.count_eq_zero_of_not_mem hmem]
    refine ⟨hcount, ?_⟩
    rintro (hbefore | hno)
    · exact lasts s a s' out houtcome (hdone hbefore)
    · exact absurd hno hmem

/-- A moment of a log that one entry has been added to is the last one, or one of the
log before. -/
theorem snoc_eq_append_cons {γ : Type*} {log pre post : List γ} {x y : γ}
    (split : log ++ [x] = pre ++ y :: post) :
    (x = y ∧ log = pre ∧ post = []) ∨
      ∃ before, post = before ++ [x] ∧ log = pre ++ y :: before := by
  rcases List.eq_nil_or_concat post with rfl | ⟨before, z, rfl⟩
  · obtain ⟨hlog, hlast⟩ := List.append_inj' split rfl
    exact .inl ⟨List.singleton_inj.mp hlast, hlog, rfl⟩
  · rw [List.concat_eq_append, ← List.cons_append, ← List.append_assoc] at split
    obtain ⟨hlog, hlast⟩ := List.append_inj' split rfl
    refine .inr ⟨before, ?_, hlog⟩
    rw [List.concat_eq_append, List.singleton_inj.mp hlast]

end Machine
