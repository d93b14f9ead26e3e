import Mathlib.Algebra.GroupWithZero.Nat
import Mathlib.Data.List.Basic
import Mathlib.Data.List.Range
import Mathlib.Order.WellFounded

/-!
# While loops that consult their environment

A loop that makes a system call in each round is run against a *script*: the list
of the answers its environment gives. The loop returns, with the part of the
script it did not use, or it is still waiting for an answer when the script ends;
so the state after any script is the state of the program at that moment.

`loop_invariant` is the partial-correctness rule. `loop_returns_of_fair` is the
termination rule of a loop that retries a bounded number of times: when the
environment lets a round through at least once in every `limit + 1` answers, the
loop returns after finitely many of them.

Under an infinite sequence of answers a loop returns or waits for ever.
`loop_waits_of_amount` shows that it waits, and `eventually_idle_of_waits` what
answers it waits under: those that do not lower a rank of its states.
`Variant.returns` is the rule of total correctness: where every round lowers a rank, the
loop returns, with what its invariant says of the rounds it has made.
-/

namespace ScriptLoop

variable {σ α : Type*}

/-- What one round of a loop does: go round again, or leave the loop. -/
inductive Flow (σ : Type*)
  | next (s : σ)
  | leave (s : σ)

/-- The state a round ends in, whichever way it goes. -/
def Flow.state : Flow σ → σ
  | .next s => s
  | .leave s => s

@[simp] theorem Flow.state_next (s : σ) : (Flow.next s).state = s := rfl

@[simp] theorem Flow.state_leave (s : σ) : (Flow.leave s).state = s := rfl

/-- Where a scripted run of a loop ends: it has returned and left the rest of the
script unread, or it waits for the next answer. -/
inductive Ending (σ α : Type*)
  | returned (s : σ) (rest : List α)
  | waiting (s : σ)

/-- The loop's state at the end of the script, returned or not. -/
def Ending.state : Ending σ α → σ
  | .returned s _ => s
  | .waiting s => s

@[simp] theorem Ending.state_returned (s : σ) (rest : List α) :
    (Ending.returned s rest).state = s := rfl

@[simp] theorem Ending.state_waiting (s : σ) : (Ending.waiting s : Ending σ α).state = s := rfl

/-- `while guard do body`, each round consuming one answer of the script. -/
def loop (guard : σ → Bool) (body : σ → α → Flow σ) : List α → σ → Ending σ α
  | [], s => if guard s then .waiting s else .returned s []
  | a :: rest, s =>
    if guard s then
      match body s a with
      | .next s' => loop guard body rest s'
      | .leave s' => .returned s' rest
    else .returned s (a :: rest)

variable {guard : σ → Bool} {body : σ → α → Flow σ}

theorem loop_of_not_guard {s : σ} (h : guard s = false) (script : List α) :
    loop guard body script s = .returned s script := by
  cases script <;> simp [loop, h]

theorem loop_cons_next {s s' : σ} {a : α} (h : guard s = true) (hbody : body s a = .next s')
    (rest : List α) : loop guard body (a :: rest) s = loop guard body rest s' := by
  simp [loop, h, hbody]

theorem loop_cons_leave {s s' : σ} {a : α} (h : guard s = true) (hbody : body s a = .leave s')
    (rest : List α) : loop guard body (a :: rest) s = .returned s' rest := by
  simp [loop, h, hbody]

/-- **Invariant rule.** A property that every round preserves holds of the state
reached under every script. -/
theorem loop_invariant {Inv : σ → Prop}
    (preserved : ∀ s a, guard s = true → Inv s → Inv (body s a).state)
    (script : List α) {s : σ} (holds : Inv s) : Inv (loop guard body script s).state := by
  induction script generalizing s with
  | nil => unfold loop; split <;> exact holds
  | cons a rest ih =>
    by_cases hguard : guard s = true
    · have hstep := preserved s a hguard holds
      cases hbody : body s a with
      | next s' => rw [loop_cons_next hguard hbody]; exact ih (by simpa [hbody] using hstep)
      | leave s' => rw [loop_cons_leave hguard hbody]; simpa [hbody] using hstep
    · rw [loop_of_not_guard (by simpa using hguard)]
      exact holds

/-- What follows the script of a loop that has returned stays unread. -/
theorem loop_append_of_returned (more : List α) {script rest : List α} {s s' : σ}
    (h : loop guard body script s = .returned s' rest) :
    loop guard body (script ++ more) s = .returned s' (rest ++ more) := by
  induction script generalizing s with
  | nil =>
    by_cases hguard : guard s = true
    · simp [loop, hguard] at h
    · have hdone : guard s = false := by simpa using hguard
      rw [loop_of_not_guard hdone] at h
      cases h
      exact loop_of_not_guard hdone _
  | cons a script ih =>
    by_cases hguard : guard s = true
    · cases hbody : body s a with
      | next t =>
        rw [loop_cons_next hguard hbody] at h
        rw [List.cons_append, loop_cons_next hguard hbody, ih h]
      | leave t =>
        rw [loop_cons_leave hguard hbody] at h
        cases h
        rw [List.cons_append, loop_cons_leave hguard hbody]
    · have hdone : guard s = false := by simpa using hguard
      rw [loop_of_not_guard hdone] at h
      cases h
      exact loop_of_not_guard hdone _

/-- A loop waits for an answer only with its guard true, and goes on with what follows
its script. -/
theorem loop_append_of_waiting (more : List α) {script : List α} {s s' : σ}
    (h : loop guard body script s = .waiting s') :
    guard s' = true ∧ loop guard body (script ++ more) s = loop guard body more s' := by
  induction script generalizing s with
  | nil =>
    by_cases hguard : guard s = true
    · have hwait : s = s' := by simpa [loop, hguard] using h
      subst hwait
      exact ⟨hguard, rfl⟩
    · rw [loop_of_not_guard (by simpa using hguard)] at h
      cases h
  | cons a script ih =>
    by_cases hguard : guard s = true
    · cases hbody : body s a with
      | next t =>
        rw [loop_cons_next hguard hbody] at h
        rw [List.cons_append, loop_cons_next hguard hbody]
        exact ih h
      | leave t =>
        rw [loop_cons_leave hguard hbody] at h
        cases h
    · rw [loop_of_not_guard (by simpa using hguard)] at h
      cases h

/-- A returned loop has a false guard, or left from a round in which `Left` holds. -/
theorem loop_returned {Left : σ → Prop}
    (left : ∀ s a s', body s a = .leave s' → Left s') {script rest : List α} {s s' : σ}
    (h : loop guard body script s = .returned s' rest) : guard s' = false ∨ Left s' := by
  induction script generalizing s with
  | nil =>
    unfold loop at h
    split at h
    · cases h
    · cases h
      exact .inl (by simpa using ‹¬ guard s' = true›)
  | cons a script ih =>
    by_cases hguard : guard s = true
    · cases hbody : body s a with
      | next t => rw [loop_cons_next hguard hbody] at h; exact ih h
      | leave t =>
        rw [loop_cons_leave hguard hbody] at h
        cases h
        exact .inr (left s a s' hbody)
    · rw [loop_of_not_guard (by simpa using hguard)] at h
      cases h
      exact .inl (by simpa using hguard)

/-! ## Programs that read their script one answer at a time

Loops are composed in sequence, and what one more answer does to the composition is
what it does to the loop that is waiting for it. `obs` is the part of the state the
law `R` of one answer speaks about; resetting a loop's locals must not show in it. -/

/-- Run `f`, and `g` on what `f` leaves of the script. -/
def andThen (f g : List α → σ → Ending σ α) (script : List α) (s : σ) : Ending σ α :=
  match f script s with
  | .waiting s' => .waiting s'
  | .returned s' rest => g rest s'

/-- The whole script has been read, and `t` is the state at its end. -/
def Ending.Exhausted (e : Ending σ α) (t : σ) : Prop := e = .waiting t ∨ e = .returned t []

theorem Ending.Exhausted.state_eq {e : Ending σ α} {t : σ} (h : e.Exhausted t) :
    e.state = t := by
  rcases h with rfl | rfl <;> rfl

/-- One answer more either changes nothing, when the program has returned, or is
consumed by the attempt that waits for it, whose effect `R` describes. -/
structure Stepwise {ω : Type*} (obs : σ → ω) (R : ω → α → ω → Prop)
    (f : List α → σ → Ending σ α) : Prop where
  idle : ∀ s, ∃ t, (f [] s).Exhausted t ∧ obs t = obs s
  returned : ∀ {pre rest s s'} a, f pre s = .returned s' rest →
    f (pre ++ [a]) s = .returned s' (rest ++ [a])
  waiting : ∀ {pre s s'} a, f pre s = .waiting s' →
    ∃ t, (f (pre ++ [a]) s).Exhausted t ∧ R (obs s') a (obs t)

section Stepwise

variable {ω : Type*} {obs : σ → ω} {R : ω → α → ω → Prop} {f g : List α → σ → Ending σ α}

/-- The next answer is left unread by a program that has returned, and taken by one
that waits. -/
theorem Stepwise.snoc (h : Stepwise obs R f) (script : List α) (a : α) (s : σ) :
    (f (script ++ [a]) s).state = (f script s).state ∨
      ∃ s', f script s = .waiting s' ∧ R (obs s') a (obs (f (script ++ [a]) s).state) := by
  cases hrun : f script s with
  | returned s' rest => exact .inl (by rw [h.returned a hrun]; rfl)
  | waiting s' =>
    obtain ⟨t, hend, hR⟩ := h.waiting a hrun
    exact .inr ⟨s', rfl, by rwa [hend.state_eq]⟩

/-- What every answer preserves is preserved by the whole program. -/
theorem Stepwise.preserves (h : Stepwise obs R f) {P : ω → Prop}
    (preserved : ∀ w a w', R w a w' → P w → P w') {s : σ} (holds : P (obs s))
    (script : List α) : P (obs (f script s).state) := by
  -- on the script from its end, where the last answer is the one `R` speaks about
  induction script using List.reverseRecOn with
  | nil =>
    obtain ⟨t, hend, hobs⟩ := h.idle s
    rwa [hend.state_eq, hobs]
  | append_singleton script a ih =>
    rcases h.snoc script a s with hsame | ⟨s', hwait, hR⟩
    · rwa [hsame]
    · rw [hwait] at ih
      exact preserved _ a _ hR ih

/-- Without an answer a loop stays in its state. -/
theorem exhausted_loop_nil (s : σ) : (loop guard body [] s).Exhausted s := by
  unfold loop
  split
  · exact .inl rfl
  · exact .inr rfl

theorem stepwise_loop (h : ∀ s a, guard s = true → R (obs s) a (obs (body s a).state)) :
    Stepwise obs R (loop guard body) where
  idle s := ⟨s, exhausted_loop_nil s, rfl⟩
  returned a hrun := loop_append_of_returned [a] hrun
  waiting {_ _ s'} a hrun := by
    obtain ⟨hguard, hmore⟩ := loop_append_of_waiting [a] hrun
    have hstep := h s' a hguard
    cases hbody : body s' a with
    | next t =>
      rw [hbody] at hstep
      rw [hmore, loop_cons_next hguard hbody]
      exact ⟨t, exhausted_loop_nil t, hstep⟩
    | leave t =>
      rw [hbody] at hstep
      rw [hmore, loop_cons_leave hguard hbody]
      exact ⟨t, .inr rfl, hstep⟩

/-- Entering a program through a reset that does not show keeps the law. -/
theorem Stepwise.comap (h : Stepwise obs R f) {enter : σ → σ}
    (hidden : ∀ s, obs (enter s) = obs s) :
    Stepwise obs R fun script s => f script (enter s) where
  idle s := by
    obtain ⟨t, hend, hobs⟩ := h.idle (enter s)
    exact ⟨t, hend, hobs.trans (hidden s)⟩
  returned a hrun := h.returned a hrun
  waiting a hrun := h.waiting a hrun

/-- What is read of a script by `f` and `g` in sequence, `f` having read it all. -/
theorem Stepwise.andThen_exhausted (hg : Stepwise obs R g) {script : List α} {s u : σ}
    (h : (f script s).Exhausted u) :
    ∃ t, (andThen f g script s).Exhausted t ∧ obs t = obs u := by
  unfold ScriptLoop.andThen
  rcases h with h | h <;> rw [h]
  · exact ⟨u, .inl rfl, rfl⟩
  · exact hg.idle u

theorem Stepwise.andThen (hf : Stepwise obs R f) (hg : Stepwise obs R g) :
    Stepwise obs R (andThen f g) where
  idle s := by
    obtain ⟨u, hend, hobs⟩ := hf.idle s
    obtain ⟨t, hend', hobs'⟩ := hg.andThen_exhausted hend
    exact ⟨t, hend', hobs'.trans hobs⟩
  returned {pre rest s s'} a hrun := by
    unfold ScriptLoop.andThen at hrun ⊢
    cases hfirst : f pre s with
    | waiting t => rw [hfirst] at hrun; cases hrun
    | returned t left =>
      rw [hfirst] at hrun
      rw [hf.returned a hfirst]
      exact hg.returned a hrun
  waiting {pre s s'} a hrun := by
    unfold ScriptLoop.andThen at hrun
    -- the new answer belongs to `f` if it still waits, and to `g` otherwise
    cases hfirst : f pre s with
    | waiting t =>
      rw [hfirst] at hrun
      cases hrun
      obtain ⟨u, hend, hR⟩ := hf.waiting a hfirst
      obtain ⟨v, hend', hobs⟩ := hg.andThen_exhausted hend
      exact ⟨v, hend', by rwa [hobs]⟩
    | returned t left =>
      rw [hfirst] at hrun
      unfold ScriptLoop.andThen
      rw [hf.returned a hfirst]
      exact hg.waiting a hrun

end Stepwise

/-! ## Environments that let a bounded number of rounds fail -/

/-- The first `n` answers of an infinite sequence. -/
def firstAnswers (answers : ℕ → α) (n : ℕ) : List α := (List.range n).map answers

@[simp] theorem firstAnswers_zero (answers : ℕ → α) : firstAnswers answers 0 = [] := rfl

/-- Reading `m + n` answers is reading `m` and then `n` of those that follow. -/
theorem firstAnswers_add (answers : ℕ → α) (m n : ℕ) :
    firstAnswers answers (m + n) =
      firstAnswers answers m ++ firstAnswers (fun i => answers (m + i)) n := by
  simp [firstAnswers, List.range_add, Function.comp_def]

theorem firstAnswers_succ (answers : ℕ → α) (n : ℕ) :
    firstAnswers answers (n + 1) = answers 0 :: firstAnswers (fun i => answers (i + 1)) n := by
  rw [Nat.add_comm, firstAnswers_add]
  simp [firstAnswers, Nat.add_comm]

/-- At most `limit` answers in a row fail, and each failure is one the program
tolerates. -/
structure Fair (ok tolerated : α → Prop) (limit : ℕ) (answers : ℕ → α) : Prop where
  clean : ∀ i, ok (answers i) ∨ tolerated (answers i)
  recurs : ∀ i, ∃ j ≤ limit, ok (answers (i + j))

theorem Fair.shift {ok tolerated : α → Prop} {limit : ℕ} {answers : ℕ → α}
    (h : Fair ok tolerated limit answers) (n : ℕ) :
    Fair ok tolerated limit fun i => answers (n + i) where
  clean i := h.clean (n + i)
  recurs i := by
    obtain ⟨j, hj, hok⟩ := h.recurs (n + i)
    exact ⟨j, hj, by rwa [← Nat.add_assoc]⟩

/-- What a retrying loop does in a round: a successful answer makes progress and
resets the count of failures, a tolerated failure short of the limit only counts. -/
structure Retries (guard : σ → Bool) (body : σ → α → Flow σ) (ok tolerated : α → Prop)
    (limit : ℕ) (Inv : σ → Prop) (remaining tries : σ → ℕ) : Prop where
  progress : ∀ s a, Inv s → guard s = true → ok a →
    ∃ s', body s a = .next s' ∧ Inv s' ∧ tries s' = 0 ∧ remaining s' < remaining s
  retry : ∀ s a, Inv s → guard s = true → tolerated a → ¬ ok a → tries s < limit →
    ∃ s', body s a = .next s' ∧ Inv s' ∧ tries s' = tries s + 1 ∧ remaining s' = remaining s

variable {ok tolerated : α → Prop} {limit : ℕ} {Inv : σ → Prop} {remaining tries : σ → ℕ}

private theorem loop_returns_within (h : Retries guard body ok tolerated limit Inv remaining tries)
    (bound : ℕ) : ∀ (wait : ℕ) (answers : ℕ → α) (s : σ), Fair ok tolerated limit answers →
      Inv s → remaining s ≤ bound → tries s + wait ≤ limit → ok (answers wait) →
      ∃ n s', Inv s' ∧ guard s' = false ∧ ∀ tail,
        loop guard body (firstAnswers answers n ++ tail) s = .returned s' tail := by
  induction bound using Nat.strong_induction_on with
  | _ bound ihBound =>
    -- a successful answer lowers what remains, so the outer hypothesis takes over
    have hsuccess : ∀ (answers : ℕ → α) (s : σ), Fair ok tolerated limit answers → Inv s →
        remaining s ≤ bound → guard s = true → ok (answers 0) →
        ∃ n s', Inv s' ∧ guard s' = false ∧ ∀ tail,
          loop guard body (firstAnswers answers n ++ tail) s = .returned s' tail := by
      intro answers s fair hinv hbound hguard hok
      obtain ⟨s₁, hbody, hinv₁, htries, hless⟩ := h.progress s (answers 0) hinv hguard hok
      obtain ⟨j, hj, hokj⟩ := fair.recurs 1
      obtain ⟨n, s', hinv', hdone, hrun⟩ := ihBound (remaining s₁) (by omega) j
        (fun i => answers (1 + i)) s₁ (fair.shift 1) hinv₁ le_rfl (by omega) hokj
      refine ⟨n + 1, s', hinv', hdone, fun tail => ?_⟩
      rw [firstAnswers_succ, List.cons_append, loop_cons_next hguard hbody]
      simpa only [Nat.add_comm 1] using hrun tail
    -- on the failures still to come before the next success
    intro wait
    induction wait with
    | zero =>
      intro answers s fair hinv hbound _ hok
      by_cases hguard : guard s = true
      · exact hsuccess answers s fair hinv hbound hguard hok
      · exact ⟨0, s, hinv, by simpa using hguard, fun tail =>
          loop_of_not_guard (by simpa using hguard) _⟩
    | succ wait ihWait =>
      intro answers s fair hinv hbound hwait hok
      by_cases hguard : guard s = true
      · by_cases hnow : ok (answers 0)
        · exact hsuccess answers s fair hinv hbound hguard hnow
        · obtain ⟨s₁, hbody, hinv₁, htries, hsame⟩ := h.retry s (answers 0) hinv hguard
            ((fair.clean 0).resolve_left hnow) hnow (by omega)
          obtain ⟨n, s', hinv', hdone, hrun⟩ := ihWait (fun i => answers (1 + i)) s₁
            (fair.shift 1) hinv₁ (by omega) (by omega) (by simpa only [Nat.add_comm 1] using hok)
          refine ⟨n + 1, s', hinv', hdone, fun tail => ?_⟩
          rw [firstAnswers_succ, List.cons_append, loop_cons_next hguard hbody]
          simpa only [Nat.add_comm 1] using hrun tail
      · exact ⟨0, s, hinv, by simpa using hguard, fun tail =>
          loop_of_not_guard (by simpa using hguard) _⟩

/-- **Termination rule.** Under a fair environment a retrying loop returns after
finitely many answers, with its guard false, and leaves what follows unread. -/
theorem loop_returns_of_fair (h : Retries guard body ok tolerated limit Inv remaining tries)
    {answers : ℕ → α} (fair : Fair ok tolerated limit answers) {s : σ} (hinv : Inv s)
    (hfresh : tries s = 0) :
    ∃ n s', Inv s' ∧ guard s' = false ∧ ∀ tail,
      loop guard body (firstAnswers answers n ++ tail) s = .returned s' tail := by
  obtain ⟨j, hj, hok⟩ := fair.recurs 0
  exact loop_returns_within h (remaining s) j answers s fair hinv le_rfl (by omega)
    (by simpa using hok)

/-! ## Loops that wait for ever -/

/-- The program returns under the answers, in the given state. -/
def Returns (f : List α → σ → Ending σ α) (answers : ℕ → α) (s s' : σ) : Prop :=
  ∃ n, ∀ tail, f (firstAnswers answers n ++ tail) s = .returned s' tail

/-- The program waits for an answer, whatever number of them it has had. -/
def WaitsForever (f : List α → σ → Ending σ α) (answers : ℕ → α) (s : σ) : Prop :=
  ∀ n, ∃ s', f (firstAnswers answers n) s = .waiting s'

theorem firstAnswers_concat (answers : ℕ → α) (n : ℕ) :
    firstAnswers answers (n + 1) = firstAnswers answers n ++ [answers n] := by
  simp [firstAnswers, List.range_succ]

section Waiting

variable {answers : ℕ → α} {s s' : σ}

theorem WaitsForever.not_returns {f : List α → σ → Ending σ α} (waits : WaitsForever f answers s)
    (s' : σ) : ¬Returns f answers s s' := by
  rintro ⟨n, hreturns⟩
  obtain ⟨t, hwaits⟩ := waits n
  have hreturned := hreturns []
  rw [List.append_nil, hwaits] at hreturned
  cases hreturned

theorem eq_of_waiting_nil (h : loop guard body [] s = .waiting s') : s' = s := by
  have hnil : (loop guard body [] s).Exhausted s := exhausted_loop_nil s
  rcases hnil with hwaits | hreturns
  · exact Ending.waiting.inj (h.symm.trans hwaits)
  · exact nomatch h.symm.trans hreturns

/-- A loop that waits after some answers goes round again with the next one, or leaves. -/
theorem loop_concat_of_waiting {script : List α}
    (h : loop guard body script s = .waiting s') (a : α) :
    (∃ t, body s' a = .next t ∧
      (loop guard body (script ++ [a]) s = .waiting t ∨
        loop guard body (script ++ [a]) s = .returned t [])) ∨
    ∃ t, body s' a = .leave t ∧ loop guard body (script ++ [a]) s = .returned t [] := by
  obtain ⟨hguard, hmore⟩ := loop_append_of_waiting [a] h
  rw [hmore]
  cases hbody : body s' a with
  | next t =>
    rw [loop_cons_next hguard hbody]
    exact .inl ⟨t, rfl, exhausted_loop_nil t⟩
  | leave t =>
    rw [loop_cons_leave hguard hbody]
    exact .inr ⟨t, rfl, rfl⟩

/-- A loop returns or waits for ever. -/
theorem loop_returns_or_waits (guard : σ → Bool) (body : σ → α → Flow σ) (answers : ℕ → α)
    (s : σ) :
    (∃ s', Returns (loop guard body) answers s s') ∨ WaitsForever (loop guard body) answers s := by
  refine or_iff_not_imp_left.mpr fun hnot n => ?_
  have hreturn : ∀ n t, loop guard body (firstAnswers answers n) s ≠ .returned t [] := by
    intro n t h
    exact hnot ⟨t, n, fun tail => by rw [loop_append_of_returned tail h, List.nil_append]⟩
  induction n with
  | zero =>
    have hnil : (loop guard body [] s).Exhausted s := exhausted_loop_nil s
    rcases hnil with h | h
    · exact ⟨s, h⟩
    · exact absurd h (hreturn 0 s)
  | succ n ih =>
    obtain ⟨t, ht⟩ := ih
    rw [firstAnswers_concat]
    rcases loop_concat_of_waiting ht (answers n) with ⟨u, -, h | h⟩ | ⟨u, -, h⟩
    · exact ⟨u, h⟩
    · exact absurd (by rwa [firstAnswers_concat]) (hreturn (n + 1) u)
    · exact absurd (by rwa [firstAnswers_concat]) (hreturn (n + 1) u)

/-- **Divergence rule.** A loop that has to get a measure to a limit waits as long as the
answers do not bring the amounts for it. -/
theorem loop_waits_of_amount (Inv : σ → Prop) (measure : σ → ℕ) (amount : α → ℕ) (limit : ℕ)
    (guarded : ∀ s, Inv s → measure s < limit → guard s = true)
    (round : ∀ s a, Inv s → measure s < limit →
      ∃ t, body s a = .next t ∧ Inv t ∧ measure t ≤ measure s + amount a)
    (holds : Inv s) {script : List α} (short : measure s + (script.map amount).sum < limit) :
    ∃ t, loop guard body script s = .waiting t := by
  induction script generalizing s with
  | nil =>
    have hguard := guarded s holds (by simpa using short)
    exact ⟨s, by simp [loop, hguard]⟩
  | cons a script ih =>
    rw [List.map_cons, List.sum_cons] at short
    have hless : measure s < limit := by omega
    obtain ⟨t, hbody, ht, hle⟩ := round s a holds hless
    rw [loop_cons_next (guarded s holds hless) hbody]
    exact ih ht (by omega)

/-- The amounts of all answers, if those from some moment on bring nothing. -/
theorem sum_amount_le (amount : α → ℕ) {n : ℕ} (nothing : ∀ m, n ≤ m → amount (answers m) = 0)
    (m : ℕ) : ((firstAnswers answers m).map amount).sum ≤
      ((firstAnswers answers n).map amount).sum := by
  rcases Nat.le_total n m with hm | hm
  · induction m, hm using Nat.le_induction with
    | base => exact Nat.le_refl _
    | succ m hm ih =>
      rw [firstAnswers_concat, List.map_append, List.sum_append, List.map_singleton,
        List.sum_singleton, nothing m hm]
      exact ih
  · obtain ⟨k, rfl⟩ := Nat.exists_eq_add_of_le hm
    rw [firstAnswers_add, List.map_append, List.sum_append]
    exact Nat.le_add_right _ _

/-- If every answer that is not idle lowers a rank, and no answer raises it, a loop that waits
for ever has idle answers only from some moment on. -/
theorem eventually_idle_of_waits (rank : σ → ℕ) (Idle : α → Prop)
    (falls : ∀ s a s', guard s = true → body s a = .next s' →
      rank s' < rank s ∨ Idle a ∧ rank s' ≤ rank s)
    (waits : WaitsForever (loop guard body) answers s) : ∃ n, ∀ m, n ≤ m → Idle (answers m) := by
  choose state hstate using waits
  have hround (n : ℕ) : rank (state (n + 1)) < rank (state n) ∨
      Idle (answers n) ∧ rank (state (n + 1)) ≤ rank (state n) := by
    have hguard := (loop_append_of_waiting [] (hstate n)).1
    have hnext := hstate (n + 1)
    rw [firstAnswers_concat] at hnext
    rcases loop_concat_of_waiting (hstate n) (answers n) with ⟨t, hbody, h | h⟩ | ⟨t, -, h⟩
    · obtain rfl : t = state (n + 1) := Ending.waiting.inj (h.symm.trans hnext)
      exact falls _ _ _ hguard hbody
    · exact nomatch h.symm.trans hnext
    · exact nomatch h.symm.trans hnext
  -- where the rank is least it cannot fall any more
  obtain ⟨n, hleast⟩ : ∃ n, ∀ m, rank (state n) ≤ rank (state m) :=
    ⟨_, fun m => Function.argmin_le (fun n => rank (state n)) m⟩
  have hstill : ∀ m, n ≤ m → rank (state m) = rank (state n) := by
    intro m hle
    induction m, hle using Nat.le_induction with
    | base => rfl
    | succ m _ ih =>
      have hround := hround m
      have hbound := hleast (m + 1)
      omega
  refine ⟨n, fun m hle => ?_⟩
  rcases hround m with hless | ⟨hidle, -⟩
  · rw [hstill m hle, hstill (m + 1) (Nat.le_succ_of_le hle)] at hless
    exact absurd hless (Nat.lt_irrefl _)
  · exact hidle

end Waiting

/-! ## Total correctness -/

/-- What holds behind a round, depending on the way it goes. -/
def Flow.Meets (next leave : σ → Prop) : Flow σ → Prop
  | .next s => next s
  | .leave s => leave s

/-- The same way in another representation of the states. -/
def Flow.map {τ : Type*} (f : σ → τ) : Flow σ → Flow τ
  | .next s => .next (f s)
  | .leave s => .leave (f s)

/-- The rounds a loop makes: the state and the answer of each. -/
def rounds (guard : σ → Bool) (body : σ → α → Flow σ) : List α → σ → List (σ × α)
  | [], _ => []
  | a :: rest, s =>
    if guard s then
      (s, a) :: match body s a with
        | .next s' => rounds guard body rest s'
        | .leave _ => []
    else []

theorem rounds_cons_next {s s' : σ} {a : α} (h : guard s = true) (hbody : body s a = .next s')
    (rest : List α) : rounds guard body (a :: rest) s = (s, a) :: rounds guard body rest s' := by
  simp [rounds, h, hbody]

theorem rounds_cons_leave {s s' : σ} {a : α} (h : guard s = true) (hbody : body s a = .leave s')
    (rest : List α) : rounds guard body (a :: rest) s = [(s, a)] := by
  simp [rounds, h, hbody]

/-- A rank that falls in every round, an invariant of the rounds made so far, and what it
comes to where the loop ends. -/
structure Variant {ω : Type*} [Preorder ω] (guard : σ → Bool) (body : σ → α → Flow σ)
    (rank : σ → ω) (Inv Post : List (σ × α) → σ → Prop) : Prop where
  round : ∀ past s a, guard s = true → Inv past s →
    (body s a).Meets (fun t => Inv (past ++ [(s, a)]) t ∧ rank t < rank s) (Post (past ++ [(s, a)]))
  done : ∀ past s, guard s = false → Inv past s → Post past s

/-- **Rule of total correctness.** -/
theorem Variant.returns {ω : Type*} [Preorder ω] [WellFoundedLT ω] {rank : σ → ω}
    {Inv Post : List (σ × α) → σ → Prop} (variant : Variant guard body rank Inv Post)
    (answers : ℕ → α) {past : List (σ × α)} {s : σ} (holds : Inv past s) :
    ∃ n t, (∀ tail, loop guard body (firstAnswers answers n ++ tail) s = .returned t tail) ∧
      Post (past ++ rounds guard body (firstAnswers answers n) s) t := by
  induction hrank : rank s using WellFoundedLT.induction generalizing answers past s with
  | ind r ih =>
    by_cases hguard : guard s = true
    · have hround := variant.round past s (answers 0) hguard holds
      cases hbody : body s (answers 0) with
      | next t =>
        rw [hbody] at hround
        obtain ⟨hinv, hless⟩ := hround
        obtain ⟨n, u, hreturns, hpost⟩ := ih (rank t) (hrank ▸ hless)
          (fun i => answers (i + 1)) hinv rfl
        refine ⟨n + 1, u, fun tail => ?_, ?_⟩
        · rw [firstAnswers_succ, List.cons_append, loop_cons_next hguard hbody]
          exact hreturns tail
        · rw [firstAnswers_succ, rounds_cons_next hguard hbody]
          rwa [List.append_assoc, List.singleton_append] at hpost
      | leave t =>
        rw [hbody] at hround
        refine ⟨1, t, fun tail => ?_, ?_⟩
        · exact loop_cons_leave hguard hbody tail
        · rw [firstAnswers_succ, rounds_cons_leave hguard hbody]
          exact hround
    · have hdone : guard s = false := by simpa using hguard
      refine ⟨0, s, fun tail => loop_of_not_guard hdone tail, ?_⟩
      rw [firstAnswers_zero, rounds, List.append_nil]
      exact variant.done past s hdone holds

end ScriptLoop
