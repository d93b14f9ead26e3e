import PiVision.Lib.LinkedList
import PiVision.Pipeline.Scheduler

/-!
# The callbacks of the scheduler

`SCHED_registerCallback` appends an entry to the list that `SCHED_run` goes through again and
again. The entries are linked through their own `next`, which the modules own and the scheduler
overwrites. Neither function looks whether an entry is in the list already, so it is up to
the modules to register different ones (`run_iff_nodup`).

`main` has each module register its one entry, and the rounds of the scheduler are then those
in which a frame passes through the process.
-/

namespace PiVision

/-- The entries of the scheduler, by their addresses: the static `registeredFuncs`, and the
`next` of each entry. -/
abbrev Scheduler (ι : Type*) := LinkedList ι

namespace Scheduler

variable {ι α σ : Type*}

/-- `SCHED_init`. The entries have anything in `next`. -/
def init (memory : ι → Option ι) : Scheduler ι := ⟨none, memory⟩

/-- A round of `SCHED_run`. Its `running` is set before the first round and never cleared. -/
def round (fuel : ℕ) (s : Scheduler ι) (callback : ι → σ → σ) (x : σ) : Option σ :=
  LinkedList.traverse s.next callback fuel s.head x

/-- So many rounds, with what the environment does in each. -/
def run (fuel : ℕ) (s : Scheduler ι) (callback : α → ι → σ → σ) (inputs : List α) (x : σ) :
    Option σ :=
  inputs.foldlM (fun x input => s.round fuel (callback input) x) x

/-- The callbacks of a round are called one after the other, in this order. -/
def inOrder (entries : List ι) (callback : ι → σ → σ) (x : σ) : σ :=
  entries.foldl (fun x entry => callback entry x) x

variable [DecidableEq ι]

/-- `SCHED_registerCallback`. -/
def registerCallback (fuel : ℕ) (s : Scheduler ι) (entry : ι) : Option (Scheduler ι) :=
  LinkedList.append fuel s entry

/-- Calls of it for these entries. -/
def registerAll (fuel : ℕ) (s : Scheduler ι) (entries : List ι) : Option (Scheduler ι) :=
  entries.foldlM (registerCallback fuel) s

omit [DecidableEq ι] in
theorem run_of_chain {s : Scheduler ι} {entries : List ι} {fuel : ℕ} (chain : s.Chain entries)
    (enough : entries.length ≤ fuel) (callback : α → ι → σ → σ) (inputs : List α) (x : σ) :
    s.run fuel callback inputs x =
      some (inputs.foldl (fun x input => inOrder entries (callback input) x) x) := by
  induction inputs generalizing x with
  | nil => rfl
  | cons input inputs ih =>
    have hround : s.round fuel (callback input) x = some (inOrder entries (callback input) x) :=
      chain.traverse_eq _ enough x
    rw [run, List.foldlM_cons, hround, List.foldl_cons]
    exact ih _

/-- Behind registrations that return, one entry at least being registered twice, a round does
not end. -/
theorem round_of_twice {memory : ι → Option ι} {entries : List ι} (twice : ¬entries.Nodup)
    {fuel : ℕ} {s : Scheduler ι} (registered : registerAll fuel (init memory) entries = some s)
    (fuel' : ℕ) (callback : ι → σ → σ) (x : σ) : s.round fuel' callback x = none := by
  have hempty : (init memory).Chain ([] : List ι) := rfl
  obtain ⟨front, loop, hlasso⟩ := LinkedList.lasso_of_appendAll hempty twice registered
  exact hlasso.traverse_eq callback fuel' x

/-- **The scheduler calls what has been registered.** Registering entries from `SCHED_init` on
returns, and in every round every one of them is called once and in their order, if and only if
no entry is registered twice. Otherwise a registration does not return, or the first round does
not end. -/
theorem run_iff_nodup (memory : ι → Option ι) (entries : List ι) :
    ((∃ fuel s, registerAll fuel (init memory) entries = some s ∧
      ∀ (α σ : Type) (callback : α → ι → σ → σ) (inputs : List α) (x : σ),
        s.run fuel callback inputs x =
          some (inputs.foldl (fun x input => inOrder entries (callback input) x) x)) ↔
      entries.Nodup) ∧
    (¬entries.Nodup → (∀ fuel, registerAll fuel (init memory) entries = none) ∨
      ∃ fuel s, registerAll fuel (init memory) entries = some s ∧
        ∀ (σ : Type) (fuel' : ℕ) (callback : ι → σ → σ) (x : σ),
          s.round fuel' callback x = none) := by
  have hempty : (init memory).Chain ([] : List ι) := rfl
  refine ⟨⟨?_, fun nodup => ?_⟩, fun twice => ?_⟩
  · rintro ⟨fuel, s, hregister, hrun⟩
    by_contra twice
    -- the first round does not end
    have hround := hrun Unit Unit (fun _ _ x => x) [()] ()
    rw [run, List.foldlM_cons, round_of_twice twice hregister] at hround
    cases hround
  · have hnew : ([] ++ entries).Nodup := nodup
    obtain ⟨s, hregister, hchain⟩ :=
      LinkedList.appendAll_of_nodup hempty hnew (Nat.le_refl entries.length)
    exact ⟨entries.length, s, hregister, fun α σ callback inputs x =>
      run_of_chain hchain (Nat.le_refl _) callback inputs x⟩
  · by_cases hreturns : ∀ fuel, registerAll fuel (init memory) entries = none
    · exact .inl hreturns
    · obtain ⟨fuel, hfuel⟩ := not_forall.mp hreturns
      obtain ⟨s, hregister⟩ := Option.ne_none_iff_exists'.mp hfuel
      exact .inr ⟨fuel, s, hregister, fun σ fuel' callback x =>
        round_of_twice twice hregister fuel' callback x⟩

end Scheduler

/-! ## The entries of the process -/

/-- The entries that the modules own. -/
inductive FuncEntry
  | client
  | server
  | algoCtrl
  | diag
  | imageProvider
  | control
  | imageDataTL
  deriving DecidableEq, Repr

namespace FuncEntry

/-- The entries in the order in which `main` calls their modules. -/
def ofMain : List FuncEntry :=
  [client, server, algoCtrl, diag, imageProvider, control, imageDataTL]

/-- The entry behind this one, and the first behind the last. -/
def following : FuncEntry → FuncEntry
  | client => server
  | server => algoCtrl
  | algoCtrl => diag
  | diag => imageProvider
  | imageProvider => control
  | control => imageDataTL
  | imageDataTL => client

end FuncEntry

/-- The registrations of `main`. -/
def Scheduler.main (fuel : ℕ) (memory : FuncEntry → Option FuncEntry) :
    Option (Scheduler FuncEntry) :=
  registerAll fuel (init memory) FuncEntry.ofMain

/-- What the callback of an entry does with the frame on its way, and the worker before
algorithm control. -/
def Process.callback (input : RoundInput) : FuncEntry → Process → Process
  | .client => clientRun input.client
  | .algoCtrl => fun p => (p.workerStep input.workerCompletes).algoCtrlRun
  | .imageProvider => providerRun
  | _ => id

namespace Scheduler

theorem exists_main (memory : FuncEntry → Option FuncEntry) :
    ∃ s, main FuncEntry.ofMain.length memory = some s ∧ s.Chain FuncEntry.ofMain := by
  have hempty : (init memory).Chain [] := rfl
  have hnew : ([] ++ FuncEntry.ofMain).Nodup := by decide
  exact LinkedList.appendAll_of_nodup hempty hnew (Nat.le_refl _)

/-- **The scheduler of `main`** carries out the rounds of the process. -/
theorem run_main (memory : FuncEntry → Option FuncEntry) (inputs : List RoundInput) (p : Process) :
    ∃ fuel s, main fuel memory = some s ∧
      s.run fuel Process.callback inputs p = some (Machine.run Process.round p inputs) := by
  obtain ⟨s, hmain, hchain⟩ := exists_main memory
  refine ⟨_, s, hmain, ?_⟩
  rw [run_of_chain hchain (Nat.le_refl _)]
  rfl

/-- Going on from an entry leads to the one that follows, and behind the last one the next
round begins with the first. -/
theorem next_of_main {s : Scheduler FuncEntry} (chain : s.Chain FuncEntry.ofMain)
    (entry : FuncEntry) : (s.next entry).or s.head = some entry.following := by
  obtain ⟨hhead, hclient, hserver, halgoCtrl, hdiag, hprovider, hcontrol, hdataTL⟩ := chain
  cases entry with
  | imageDataTL => rw [show s.next .imageDataTL = none from hdataTL, hhead]; rfl
  | client => rw [hclient]; rfl
  | server => rw [hserver]; rfl
  | algoCtrl => rw [halgoCtrl]; rfl
  | diag => rw [hdiag]; rfl
  | imageProvider => rw [hprovider]; rfl
  | control => rw [hcontrol]; rfl

end Scheduler

end PiVision
