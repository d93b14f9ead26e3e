import Mathlib.Data.List.Count
import PiVision.EthTerm.Link

/-!
# Heartbeat timeouts and descriptors

A connection raises its first `HEARTBEAT_TIMEOUT` when it is constructed, and each
timeout it acts on raises the next one or, when the connection is no longer active, lets
its destructor go on. A timeout names a connection by its socket's descriptor, and every
connection object that is still subscribed hears it.

The descriptor is closed where `Execute` ends, and the object hears timeouts until its
destructor has seen the last of its own. A connection created in between may be given the
same descriptor, and then two objects answer to it.
-/

namespace PiVision

open Machine

namespace EthTermConnection

/-- The handler of `HEARTBEAT_TIMEOUT`: the connection behind it, the payloads it sends
and the timeouts it raises. -/
def handleHeartbeatTimeout (ownPid : ℕ) (id : ℤ) (c : EthTermConnection) :
    EthTermConnection × List PiVisionData × List ℤ :=
  if id = c.socketFd then
    if c.active then
      if !c.sentPid && decide (c.connType = .client) then
        ({ c with sentPid := true }, [pidMsgBuf ownPid, heartbeatMsgBuf], [id])
      else (c, [heartbeatMsgBuf], [id])
    else ({ c with lastHeartbeatReceived := true }, [], [])
  else (c, [], [])

variable {ownPid : ℕ} {id : ℤ} {c : EthTermConnection}

/-- A timeout of another descriptor is none of the connection's. -/
theorem handleHeartbeatTimeout_of_ne (other : c.socketFd ≠ id) :
    c.handleHeartbeatTimeout ownPid id = (c, [], []) := if_neg (Ne.symm other)

theorem handleHeartbeatTimeout_of_not_active (own : c.socketFd = id) (ended : c.active = false) :
    c.handleHeartbeatTimeout ownPid id = ({ c with lastHeartbeatReceived := true }, [], []) := by
  simp [handleHeartbeatTimeout, own, ended]

/-- An active connection acts on its timeout with one heartbeat and the next timeout. -/
theorem handleHeartbeatTimeout_of_active (ownPid : ℕ) (own : c.socketFd = id)
    (live : c.active = true) :
    ∃ c' pid, c.handleHeartbeatTimeout ownPid id = (c', pid ++ [heartbeatMsgBuf], [id]) ∧
      c'.lastHeartbeatReceived = c.lastHeartbeatReceived ∧
        (pid = [] ∨ pid = [pidMsgBuf ownPid]) := by
  by_cases hfirst : (!c.sentPid && decide (c.connType = .client)) = true
  · refine ⟨{ c with sentPid := true }, [pidMsgBuf ownPid], ?_, rfl, .inr rfl⟩
    rw [handleHeartbeatTimeout, if_pos own.symm, if_pos live, if_pos hfirst]
    rfl
  · refine ⟨c, [], ?_, rfl, .inl rfl⟩
    rw [handleHeartbeatTimeout, if_pos own.symm, if_pos live, if_neg hfirst]
    rfl

/-- A connection that waits for its last timeout raises the next one or waits no more. -/
theorem handleHeartbeatTimeout_own (ownPid : ℕ) (own : c.socketFd = id)
    (waits : c.lastHeartbeatReceived = false) :
    ((c.handleHeartbeatTimeout ownPid id).2.2 = [id] ∧
        (c.handleHeartbeatTimeout ownPid id).1.lastHeartbeatReceived = false) ∨
      ((c.handleHeartbeatTimeout ownPid id).2.2 = [] ∧
        (c.handleHeartbeatTimeout ownPid id).1.lastHeartbeatReceived = true) := by
  cases hactive : c.active with
  | true =>
    obtain ⟨c', pid, hhandle, hsame, -⟩ := handleHeartbeatTimeout_of_active ownPid own hactive
    rw [hhandle]
    exact .inl ⟨rfl, hsame.trans waits⟩
  | false =>
    rw [handleHeartbeatTimeout_of_not_active own hactive]
    exact .inr ⟨rfl, rfl⟩

@[simp] theorem socketFd_handleHeartbeatTimeout :
    (c.handleHeartbeatTimeout ownPid id).1.socketFd = c.socketFd := by
  unfold handleHeartbeatTimeout
  split
  · split
    · split
      · rfl
      · rfl
    · rfl
  · rfl

/-- The delivery of a timeout to an end of a link does this to the connection. -/
theorem heartbeatTimeout_conn (e : LinkEnd) (idle : e.handler = .idle) :
    (e.heartbeatTimeout id).conn = (e.conn.handleHeartbeatTimeout e.ownPid id).1 := by
  simp only [LinkEnd.heartbeatTimeout, idle, handleHeartbeatTimeout]
  split
  · split
    · split
      · rfl
      · rfl
    · rfl
  · rfl

end EthTermConnection

/-- A connection object that is subscribed to `HEARTBEAT_TIMEOUT`; its `Execute` has
ended or not. -/
structure ConnectionObject where
  conn : EthTermConnection
  executing : Bool
  deriving DecidableEq, Repr

/-- The connection objects of a process, the descriptors of the timeouts raised and not
yet delivered, and the payloads handed to `Send`, each with its descriptor. -/
structure ConnectionPool where
  objects : List ConnectionObject
  pending : List ℤ
  sent : List (ℤ × PiVisionData)

/-- What can happen: a connection is created for a descriptor, it is given up, its
`Execute` ends, a timeout is delivered, the destructor goes on. -/
inductive PoolAction
  | create (connType : ConnectionType) (serviceNo : ℕ) (socketFd : ℤ)
  | deactivate (i : ℕ)
  | endExecute (i : ℕ)
  | timeout (id : ℤ)
  | destroy (i : ℕ)
  deriving DecidableEq, Repr

namespace ConnectionPool

open EthTermConnection

/-- No connection yet. -/
def start : ConnectionPool := ⟨[], [], []⟩

/-- The descriptors that connection objects answer to. -/
def descriptors (p : ConnectionPool) : List ℤ := p.objects.map fun o => o.conn.socketFd

/-- The operating system can give out the descriptor: no connection has it open. A
failed `accept` gives -1, which is no descriptor. -/
def Available (p : ConnectionPool) (socketFd : ℤ) : Prop :=
  socketFd = -1 ∨ ∀ o ∈ p.objects, o.executing = true → o.conn.socketFd ≠ socketFd

instance (p : ConnectionPool) (socketFd : ℤ) : Decidable (p.Available socketFd) :=
  inferInstanceAs (Decidable (_ ∨ _))

/-- The constructor, which subscribes and raises the first timeout. -/
def create (p : ConnectionPool) (connType : ConnectionType) (serviceNo : ℕ) (socketFd : ℤ) :
    ConnectionPool :=
  { p with
    objects := p.objects ++ [⟨.new connType serviceNo socketFd, true⟩]
    pending := p.pending ++ [socketFd] }

/-- The delivery of a timeout, to all that are subscribed. -/
def timeout (ownPid : ℕ) (p : ConnectionPool) (id : ℤ) : ConnectionPool where
  objects := p.objects.map fun o =>
    { o with conn := (o.conn.handleHeartbeatTimeout ownPid id).1 }
  pending := p.pending.erase id ++ p.objects.flatMap fun o =>
    (o.conn.handleHeartbeatTimeout ownPid id).2.2
  sent := p.sent ++ p.objects.flatMap fun o =>
    (o.conn.handleHeartbeatTimeout ownPid id).2.1.map fun data => (o.conn.socketFd, data)

/-- A step. An action that is not possible does nothing. -/
def step (ownPid : ℕ) (p : ConnectionPool) : PoolAction → ConnectionPool
  | .create connType serviceNo socketFd =>
    if p.Available socketFd then p.create connType serviceNo socketFd else p
  | .deactivate i => { p with objects := p.objects.modify i fun o =>
      { o with conn := o.conn.deactivate } }
  -- the loop of `Execute` is left when `active` is clear, and the descriptor closed
  | .endExecute i => { p with objects := p.objects.modify i fun o =>
      if o.conn.active then o else { o with conn := o.conn.deactivate, executing := false } }
  | .timeout id => if id ∈ p.pending then p.timeout ownPid id else p
  | .destroy i =>
    match p.objects[i]? with
    | some o =>
      if !o.executing && o.conn.lastHeartbeatReceived then
        { p with objects := p.objects.eraseIdx i }
      else p
    | none => p

/-- One chain of timeouts a connection: one is pending for each object that waits for its
last one, none for the others, and each pending one is acted on by one object. -/
structure OneChain (p : ConnectionPool) : Prop where
  pending : ∀ o ∈ p.objects,
    p.pending.count o.conn.socketFd = if o.conn.lastHeartbeatReceived then 0 else 1
  acted : ∀ id ∈ p.pending, p.descriptors.count id = 1

/-- A connection is created for a descriptor that no connection object answers to. -/
def FreshDescriptor (p : ConnectionPool) : PoolAction → Prop
  | .create _ _ socketFd => p.Available socketFd → socketFd ∉ p.descriptors
  | _ => True

variable {p : ConnectionPool} {ownPid : ℕ} {id : ℤ}

theorem oneChain_start : start.OneChain := ⟨by simp [start], by simp [start]⟩

/-- A change of an object that keeps its descriptor and what it waits for. -/
theorem OneChain.modify (chain : p.OneChain) (i : ℕ) {f : ConnectionObject → ConnectionObject}
    (sameFd : ∀ o, (f o).conn.socketFd = o.conn.socketFd)
    (sameLast : ∀ o, (f o).conn.lastHeartbeatReceived = o.conn.lastHeartbeatReceived) :
    { p with objects := p.objects.modify i f }.OneChain := by
  have hdescriptors : { p with objects := p.objects.modify i f }.descriptors = p.descriptors := by
    apply List.ext_getElem?
    intro j
    simp only [descriptors, List.getElem?_map, List.getElem?_modify]
    split
    · cases p.objects[j]? with
      | none => rfl
      | some o => simp [sameFd]
    · simp
  constructor
  · intro o ho
    obtain ⟨j, hj⟩ := List.mem_iff_getElem?.mp ho
    rw [List.getElem?_modify] at hj
    obtain ⟨o', ho', rfl⟩ := Option.map_eq_some_iff.mp hj
    have hpending := chain.pending o' (List.mem_of_getElem? ho')
    split
    · rw [sameFd, sameLast]
      exact hpending
    · exact hpending
  · intro id hid
    rw [hdescriptors]
    exact chain.acted id hid

/-- The one object that answers to a descriptor, among the others. -/
theorem exists_split_of_count (once : p.descriptors.count id = 1) :
    ∃ l o r, p.objects = l ++ o :: r ∧ o.conn.socketFd = id ∧
      ∀ x ∈ l ++ r, x.conn.socketFd ≠ id := by
  have hmem : id ∈ p.descriptors := List.count_pos_iff.mp (by omega)
  obtain ⟨o, ho, hfd⟩ := List.mem_map.mp hmem
  obtain ⟨l, r, hsplit⟩ := List.append_of_mem ho
  refine ⟨l, o, r, hsplit, hfd, fun x hx hxfd => ?_⟩
  -- a second one would be counted too
  have hother : 0 < ((l ++ r).map fun x => x.conn.socketFd).count id :=
    List.count_pos_iff.mpr (List.mem_map.mpr ⟨x, hx, hxfd⟩)
  rw [descriptors, hsplit] at once
  simp only [List.map_append, List.map_cons, List.count_append, List.count_cons, hfd,
    beq_self_eq_true, if_true] at once hother
  omega

theorem map_handle_of_ne {l : List ConnectionObject} (other : ∀ x ∈ l, x.conn.socketFd ≠ id) :
    (l.map fun o => { o with conn := (o.conn.handleHeartbeatTimeout ownPid id).1 }) = l := by
  conv_rhs => rw [← List.map_id l]
  refine List.map_congr_left fun x hx => ?_
  rw [handleHeartbeatTimeout_of_ne (other x hx)]
  rfl

theorem flatMap_handle_of_ne {β : Type*} (ownPid : ℕ) {l : List ConnectionObject}
    (f : ConnectionObject → EthTermConnection × List PiVisionData × List ℤ → List β)
    (other : ∀ x ∈ l, x.conn.socketFd ≠ id) (quiet : ∀ o c, f o (c, [], []) = []) :
    (l.flatMap fun o => f o (o.conn.handleHeartbeatTimeout ownPid id)) = [] := by
  refine List.flatMap_eq_nil_iff.mpr fun x hx => ?_
  rw [handleHeartbeatTimeout_of_ne (other x hx), quiet]

/-- A timeout that one object answers to changes that object only. -/
theorem timeout_eq {l r : List ConnectionObject} {o : ConnectionObject}
    (split : p.objects = l ++ o :: r) (other : ∀ x ∈ l ++ r, x.conn.socketFd ≠ id) :
    p.timeout ownPid id =
      ⟨l ++ { o with conn := (o.conn.handleHeartbeatTimeout ownPid id).1 } :: r,
        p.pending.erase id ++ (o.conn.handleHeartbeatTimeout ownPid id).2.2,
        p.sent ++ (o.conn.handleHeartbeatTimeout ownPid id).2.1.map
          fun data => (o.conn.socketFd, data)⟩ := by
  have hl : ∀ x ∈ l, x.conn.socketFd ≠ id := fun x hx => other x (List.mem_append_left r hx)
  have hr : ∀ x ∈ r, x.conn.socketFd ≠ id := fun x hx => other x (List.mem_append_right l hx)
  have hquiet := fun (xs : List ConnectionObject) (hxs : ∀ x ∈ xs, x.conn.socketFd ≠ id) =>
    flatMap_handle_of_ne ownPid (fun _ outcome => outcome.2.2) hxs fun _ _ => rfl
  have hsilent := fun (xs : List ConnectionObject) (hxs : ∀ x ∈ xs, x.conn.socketFd ≠ id) =>
    flatMap_handle_of_ne ownPid
      (fun o outcome => outcome.2.1.map fun data => (o.conn.socketFd, data)) hxs fun _ _ => rfl
  simp only [timeout, split, List.map_append, List.map_cons, List.flatMap_append,
    List.flatMap_cons, map_handle_of_ne hl, map_handle_of_ne hr, hquiet l hl, hquiet r hr,
    hsilent l hl, hsilent r hr, List.nil_append, List.append_nil]

/-- The object that a pending timeout names waits for this one, and for no other. -/
theorem OneChain.waits (chain : p.OneChain) (raised : id ∈ p.pending) {o : ConnectionObject}
    (mem : o ∈ p.objects) (own : o.conn.socketFd = id) :
    p.pending.count id = 1 ∧ o.conn.lastHeartbeatReceived = false := by
  have hcount := chain.pending o mem
  have hpos : 0 < p.pending.count id := List.count_pos_iff.mpr raised
  rw [own] at hcount
  cases hlast : o.conn.lastHeartbeatReceived with
  | true =>
    rw [hlast, if_pos rfl] at hcount
    omega
  | false =>
    rw [hlast] at hcount
    exact ⟨hcount, rfl⟩

theorem OneChain.timeout (chain : p.OneChain) (raised : id ∈ p.pending) :
    (p.timeout ownPid id).OneChain := by
  obtain ⟨l, o, r, hsplit, hfd, hother⟩ := exists_split_of_count (chain.acted id raised)
  obtain ⟨hone, hwaits⟩ := chain.waits raised (by rw [hsplit]; simp) hfd
  have hdescriptors : (p.timeout ownPid id).descriptors = p.descriptors := by
    simp [descriptors, ConnectionPool.timeout]
  have herase : (p.pending.erase id).count id = 0 := by rw [List.count_erase_self, hone]
  have hacts := handleHeartbeatTimeout_own ownPid hfd hwaits
  have hnext : ∀ k ∈ (o.conn.handleHeartbeatTimeout ownPid id).2.2, k = id := by
    obtain ⟨hraised, -⟩ | ⟨hraised, -⟩ := hacts
    · simp [hraised]
    · simp [hraised]
  have hrest : ∀ x ∈ l ++ r,
      (p.pending.erase id ++ (o.conn.handleHeartbeatTimeout ownPid id).2.2).count x.conn.socketFd =
        if x.conn.lastHeartbeatReceived then 0 else 1 := by
    intro x hx
    have hx' : x ∈ p.objects := by
      rw [hsplit]
      obtain hl | hr := List.mem_append.mp hx
      · exact List.mem_append_left _ hl
      · exact List.mem_append_right _ (List.mem_cons_of_mem _ hr)
    have hno : x.conn.socketFd ∉ (o.conn.handleHeartbeatTimeout ownPid id).2.2 :=
      fun hmem => hother x hx (hnext _ hmem)
    rw [List.count_append, List.count_eq_zero_of_not_mem hno,
      List.count_erase_of_ne (hother x hx), Nat.add_zero]
    exact chain.pending x hx'
  constructor
  · rw [timeout_eq hsplit hother]
    intro x hx
    obtain hl | rfl | hr : x ∈ l ∨ x = _ ∨ x ∈ r := by simpa using hx
    · exact hrest x (List.mem_append_left r hl)
    · -- the next timeout takes the place of this one, or this one was the last
      obtain ⟨hraised, hlast⟩ | ⟨hraised, hlast⟩ := hacts
      · simp [hraised, hlast, hfd, herase]
      · simp [hraised, hlast, hfd, herase]
    · exact hrest x (List.mem_append_right l hr)
  · intro k hk
    rw [hdescriptors]
    rw [timeout_eq hsplit hother] at hk
    obtain hold | hnew := List.mem_append.mp hk
    · exact chain.acted k (List.mem_of_mem_erase hold)
    · rw [hnext k hnew]
      exact chain.acted id raised

theorem OneChain.destroy (chain : p.OneChain) {i : ℕ} {o : ConnectionObject}
    (at_i : p.objects[i]? = some o) (done : o.conn.lastHeartbeatReceived = true) :
    { p with objects := p.objects.eraseIdx i }.OneChain := by
  have ho : o ∈ p.objects := List.mem_of_getElem? at_i
  constructor
  · intro x hx
    exact chain.pending x (List.mem_of_mem_eraseIdx hx)
  · intro id hid
    -- nothing is pending for the object that goes
    have hne : o.conn.socketFd ≠ id := by
      rintro rfl
      have hcount := chain.pending o ho
      rw [done, if_pos rfl] at hcount
      exact List.count_eq_zero.mp hcount hid
    obtain ⟨hi, hget⟩ := List.getElem?_eq_some_iff.mp at_i
    have hperm : p.objects.Perm (o :: p.objects.eraseIdx i) := by
      have herase := List.erase_getElem hi
      rw [hget] at herase
      exact (List.perm_cons_erase ho).trans (herase.cons o)
    have hcount := (hperm.map fun o => o.conn.socketFd).count_eq id
    rw [List.map_cons, List.count_cons_of_ne hne] at hcount
    exact hcount.symm.trans (chain.acted id hid)

/-- Creating a connection keeps the law exactly when its descriptor is fresh. -/
theorem oneChain_create_iff (chain : p.OneChain) {connType : ConnectionType} {serviceNo : ℕ}
    {socketFd : ℤ} :
    (p.create connType serviceNo socketFd).OneChain ↔ socketFd ∉ p.descriptors := by
  have hdescriptors : (p.create connType serviceNo socketFd).descriptors =
      p.descriptors ++ [socketFd] := by
    simp [descriptors, create, EthTermConnection.new]
  constructor
  · intro next hmem
    have hacted := next.acted socketFd (by simp [create])
    have hpos : 0 < p.descriptors.count socketFd := List.count_pos_iff.mpr hmem
    rw [hdescriptors, List.count_append, List.count_singleton_self] at hacted
    omega
  · intro hfresh
    -- a timeout pending for the descriptor would have an object that answers to it
    have hnone : socketFd ∉ p.pending := by
      intro hmem
      have hacted := chain.acted socketFd hmem
      rw [List.count_eq_zero_of_not_mem hfresh] at hacted
      omega
    constructor
    · intro o ho
      obtain hold | rfl : o ∈ p.objects ∨ o = _ := by simpa [create] using ho
      · have hne : o.conn.socketFd ≠ socketFd := by
          rintro rfl
          exact hfresh (List.mem_map.mpr ⟨o, hold, rfl⟩)
        rw [create, List.count_append, List.count_singleton, beq_false_of_ne hne.symm]
        exact chain.pending o hold
      · simp [create, EthTermConnection.new, List.count_eq_zero_of_not_mem hnone]
    · intro id hid
      rw [hdescriptors, List.count_append]
      obtain hold | rfl : id ∈ p.pending ∨ id = socketFd := by simpa [create] using hid
      · have hne : socketFd ≠ id := by
          rintro rfl
          exact hnone hold
        rw [List.count_singleton, beq_false_of_ne hne]
        exact chain.acted id hold
      · rw [List.count_eq_zero_of_not_mem hfresh, List.count_singleton_self]

theorem oneChain_step_iff (p : ConnectionPool) (action : PoolAction) (chain : p.OneChain) :
    (step ownPid p action).OneChain ↔ p.FreshDescriptor action := by
  cases action with
  | create connType serviceNo socketFd =>
    by_cases havailable : p.Available socketFd
    · simp only [step, havailable, if_true, FreshDescriptor, true_imp_iff]
      exact oneChain_create_iff chain
    · simp only [step, havailable, if_false, FreshDescriptor, false_imp_iff, iff_true]
      exact chain
  | deactivate i =>
    exact iff_of_true (chain.modify i (fun _ => rfl) fun _ => rfl) trivial
  | endExecute i =>
    refine iff_of_true (chain.modify i (fun o => ?_) fun o => ?_) trivial
    · split <;> rfl
    · split <;> rfl
  | timeout id =>
    refine iff_of_true ?_ trivial
    simp only [step]
    split
    · exact chain.timeout ‹_›
    · exact chain
  | destroy i =>
    refine iff_of_true ?_ trivial
    simp only [step]
    split
    · split
      · rename_i o hget hdone
        rw [Bool.and_eq_true] at hdone
        exact chain.destroy hget hdone.2
      · exact chain
    · exact chain

/-- Behind every step of a run each connection has one chain of timeouts, if and only if
every connection is created for a descriptor that no connection object still answers
to. -/
theorem oneChain_iff_freshDescriptor (ownPid : ℕ) (actions : List PoolAction) :
    Along (step ownPid) (fun p action => (step ownPid p action).OneChain) start actions ↔
      Along (step ownPid) FreshDescriptor start actions :=
  along_next_iff oneChain_step_iff oneChain_start actions

/-- A connection ends, and a new one is given its descriptor before its last timeout. -/
theorem oneChain_broken_by_reuse :
    ¬ Along (step 1) (fun p action => (step 1 p action).OneChain) start
      [.create .server 7 5, .deactivate 0, .endExecute 0, .create .server 7 5] := by
  rintro ⟨-, -, -, hlast, -⟩
  have hacted := hlast.acted 5 (by decide)
  exact absurd hacted (by decide)

end ConnectionPool

end PiVision
