import Mathlib.Data.List.Basic
import Mathlib.Logic.Function.Basic
import Mingo.Lib.Machine
import Mingo.Scheduler.Basic

/-!
# The steps of the workers, one access at a time

`Scheduler::run` and `schedule` again, and `IOManager::idle` and `tickle` with
them, with every access to shared data as a step of its own: the search under
the lock, the reading of `m_idleThreadCount` and the write to the pipe in
`tickle`, the decrement of `m_activeThreadCount`, the look at the state of the
fiber that has returned, the lock under which it is put back.

Entries of `m_fibers` carry the number of their push, and a step says what it
does with them; both are there to state properties.  The callers of `schedule`
and `tickle` outside `run` are counted by how far they are.
-/

namespace Mingo

/-- An entry of `m_fibers`. -/
structure Entry extends FiberAndThread where
  id : Nat
  deriving DecidableEq, Repr

/-- How far a call of `IOManager::tickle` is. -/
inductive Tickling
  /-- before `hasIdleThreads` -/
  | called
  /-- before the write to the pipe -/
  | writing
  deriving DecidableEq, Repr

/-- Where a worker stands in `run`, and in `idle` when that is on its stack. -/
inductive RunPhase
  /-- `run` is not entered yet -/
  | stopped
  /-- before the search -/
  | polling
  /-- the lock is released; the call of `tickle` that is still to be made -/
  | searched (taken : Option Entry) (tickle : Option Tickling)
  /-- before `swapIn`, on the fiber `f` -/
  | entering (e : Entry) (f : Nat) (isCb : Bool)
  /-- in the body of the fiber -/
  | running (f : Nat) (isCb : Bool)
  /-- in `swapOut`, before the context is saved -/
  | saving (f : Nat) (isCb : Bool)
  /-- `swapIn` has returned -/
  | returned (f : Nat) (isCb : Bool)
  /-- `m_activeThreadCount` is decremented -/
  | decremented (f : Nat) (isCb : Bool)
  /-- the fiber was seen in state `READY` -/
  | requeue (f : Nat) (isCb : Bool)
  /-- it is in the queue again; the call of `tickle` is still to be made -/
  | requeued (tickle : Tickling)
  /-- in `idle`, before `epoll_wait` -/
  | idle
  /-- blocked in `epoll_wait` -/
  | waiting
  /-- `epoll_wait` has returned -/
  | woken
  /-- `run` has returned -/
  | exited
  deriving DecidableEq, Repr

namespace RunPhase

/-- Between the removal of an entry and the matching decrement of
`m_activeThreadCount`. -/
def active : RunPhase → Bool
  | .searched (some _) _ => true
  | .entering _ _ _ => true
  | .running _ _ => true
  | .saving _ _ => true
  | .returned _ _ => true
  | _ => false

/-- Between the increment and the decrement of `m_idleThreadCount`. -/
def idling : RunPhase → Bool
  | .idle => true
  | .waiting => true
  | .woken => true
  | _ => false

/-- The entry that the worker has removed and not dealt with yet. -/
def holds : RunPhase → Option Entry
  | .searched taken _ => taken
  | .entering e _ _ => some e
  | _ => none

end RunPhase

/-- The local variables of `run`; `idleTerm` is whether the idle fiber has
terminated. -/
structure RunWorker where
  phase : RunPhase
  cbFiber : Option Nat
  idleTerm : Bool
  deriving DecidableEq, Repr

/-- The shared data, the workers, and the callers of `tickle` from outside. -/
structure Workers where
  threads : Nat
  fibers : List Entry
  nextId : Nat
  state : Nat → Option FiberState
  workers : Nat → RunWorker
  activeThreadCount : Nat
  idleThreadCount : Nat
  autoStop : Bool
  isStopping : Bool
  called : Nat
  writing : Nat
  pipe : Nat

/-- What is done with an entry. -/
inductive TaskEvent
  | pushed (e : Entry)
  | removed (w : Nat) (e : Entry)
  | executed (w : Nat) (e : Entry)
  | dropped (w : Nat) (e : Entry) (state : FiberState)
  deriving DecidableEq, Repr

namespace Workers

/-- A scheduler with `n` workers. -/
def new (n : Nat) : Workers where
  threads := n
  fibers := []
  nextId := 0
  state := fun _ => none
  workers := fun _ => ⟨.stopped, none, false⟩
  activeThreadCount := 0
  idleThreadCount := 0
  autoStop := false
  isStopping := true
  called := 0
  writing := 0
  pipe := 0

def setState (s : Workers) (f : Nat) (st : FiberState) : Workers :=
  { s with state := Function.update s.state f (some st) }

def setWorker (s : Workers) (w : Nat) (worker : RunWorker) : Workers :=
  { s with workers := Function.update s.workers w worker }

def setPhase (s : Workers) (w : Nat) (p : RunPhase) : Workers :=
  s.setWorker w { s.workers w with phase := p }

/-- `Scheduler::stopping`. -/
def stopping (s : Workers) : Bool :=
  s.autoStop && s.isStopping && s.fibers.isEmpty && s.activeThreadCount == 0

/-- The worker may not run the entry: it is bound to another one. -/
def bound (w : Nat) (e : Entry) : Bool := e.thread ≠ none ∧ e.thread ≠ some w

/-- The fiber of the entry is running. -/
def executing (s : Workers) (e : Entry) : Bool :=
  match e.task with
  | .fiber f => s.state f = some .exec
  | .cb _ => false

/-- The search of `run`: the entry taken, the others, and `tickle_me`. -/
def search (s : Workers) (w : Nat) : List Entry → Option Entry × List Entry × Bool
  | [] => (none, [], false)
  | e :: rest =>
      if bound w e then
        let r := s.search w rest
        (r.1, e :: r.2.1, true)
      else if s.executing e then
        let r := s.search w rest
        (r.1, e :: r.2.1, r.2.2)
      else (some e, rest, !rest.isEmpty)

/-- `scheduleNoLock`, where a null task is not pushed; the entry pushed, and
`need_tickle`. -/
def scheduleNoLock (s : Workers) (ft : Option FiberAndThread) : Option Entry × Bool × Workers :=
  match ft with
  | none => (none, s.fibers.isEmpty, s)
  | some ft =>
      let e : Entry := ⟨ft, s.nextId⟩
      (some e, s.fibers.isEmpty, { s with fibers := s.fibers ++ [e], nextId := s.nextId + 1 })

/-- The loop of the second `schedule` under the lock. -/
def scheduleAll (s : Workers) : List (Option FiberAndThread) → List Entry × Bool × Workers
  | [] => ([], false, s)
  | ft :: fts =>
      let r := s.scheduleNoLock ft
      let rs := r.2.2.scheduleAll fts
      (r.1.toList ++ rs.1, r.2.1 || rs.2.1, rs.2.2)

/-- The steps of a worker. -/
inductive Act
  | start
  | dequeue
  | tickle
  | write
  | dispatch (fresh : Nat)
  | swapIn
  | yield (how : Scheduler.Yield)
  | save
  | decrement
  | settle
  | requeue
  | finishIdle
  | epollWait (blocks : Bool)
  | wake
  | drain
  | leaveIdle
  deriving DecidableEq, Repr

/-- The search under the lock. -/
def dequeue (s : Workers) (w : Nat) : List TaskEvent × Workers :=
  let r := s.search w s.fibers
  let tickle := if r.2.2 then some Tickling.called else none
  let s := { s with fibers := r.2.1 }
  match r.1 with
  | none => ([], s.setPhase w (.searched none tickle))
  | some e =>
      ([.removed w e],
        { s with activeThreadCount := s.activeThreadCount + 1 }.setPhase w
          (.searched (some e) tickle))

/-- `hasIdleThreads` in `tickle`. -/
def hasIdleThreads (s : Workers) : Bool := s.idleThreadCount > 0

/-- What is left of a call of `tickle` after `hasIdleThreads`. -/
def checked (s : Workers) : Option Tickling := if s.hasIdleThreads then some .writing else none

/-- From the search to the next `swapIn`.  A callback is run on the worker's
`cb_fiber`, which is reset, or on a new fiber at the address `fresh`. -/
def dispatch (s : Workers) (w fresh : Nat) (taken : Option Entry) :
    Option (List TaskEvent × Workers) :=
  match taken with
  | some e =>
      match e.task with
      | .fiber f =>
          match s.state f with
          | some .term =>
              some ([.dropped w e .term],
                { s with activeThreadCount := s.activeThreadCount - 1 }.setPhase w .polling)
          | some .except =>
              some ([.dropped w e .except],
                { s with activeThreadCount := s.activeThreadCount - 1 }.setPhase w .polling)
          | _ => some ([], s.setPhase w (.entering e f false))
      | .cb _ =>
          match (s.workers w).cbFiber with
          | some f =>
              if s.state f = some .term ∨ s.state f = some .except ∨ s.state f = some .init then
                some ([], (s.setState f .init).setPhase w (.entering e f true))
              else none
          | none =>
              if s.state fresh = none then
                some ([], (s.setState fresh .init).setWorker w
                  { s.workers w with phase := .entering e fresh true, cbFiber := some fresh })
              else none
  | none =>
      if (s.workers w).idleTerm then some ([], s.setPhase w .exited)
      else some ([], { s with idleThreadCount := s.idleThreadCount + 1 }.setPhase w .idle)

/-- The body of a fiber gives up the processor; the two `Yield` functions
assert that it is running. -/
def yield (s : Workers) (w f : Nat) (isCb : Bool) (how : Scheduler.Yield) : Option Workers :=
  let s' := s.setPhase w (.saving f isCb)
  match how with
  | .toHold => if s.state f = some .exec then some (s'.setState f .hold) else none
  | .toReady => if s.state f = some .exec then some (s'.setState f .ready) else none
  | .swapOut => some s'
  | .term => some (s'.setState f .term)
  | .except => some (s'.setState f .except)

/-- What `run` does with the state of a fiber that has returned. -/
def settle (s : Workers) (w f : Nat) (isCb : Bool) : Workers :=
  let dropped := s.setWorker w { s.workers w with phase := .polling, cbFiber := none }
  if s.state f = some .ready then s.setPhase w (.requeue f isCb)
  else if s.state f = some .term ∨ s.state f = some .except then
    if isCb then (s.setPhase w .polling).setState f .init else s.setPhase w .polling
  else if isCb then dropped.setState f .hold
  else (s.setPhase w .polling).setState f .hold

/-- `schedule` of a fiber that was seen in state `READY`. -/
def requeue (s : Workers) (w f : Nat) (isCb : Bool) : List TaskEvent × Workers :=
  let r := s.scheduleNoLock (some ⟨.fiber f, none⟩)
  let next : RunPhase := if r.2.1 then .requeued .called else .polling
  (r.1.toList.map .pushed,
    r.2.2.setWorker w
      { s.workers w with
        phase := next
        cbFiber := if isCb then none else (s.workers w).cbFiber })

/-- A step of a worker; undefined when it does not stand there or an assertion
fails. -/
def act (s : Workers) (w : Nat) : Act → RunPhase → Option (List TaskEvent × Workers)
  | .start, .stopped => some ([], s.setPhase w .polling)
  | .dequeue, .polling => some (s.dequeue w)
  | .tickle, .searched taken (some .called) => some ([], s.setPhase w (.searched taken s.checked))
  | .write, .searched taken (some .writing) =>
      some ([], { s with pipe := s.pipe + 1 }.setPhase w (.searched taken none))
  | .dispatch fresh, .searched taken none => s.dispatch w fresh taken
  | .swapIn, .entering e f isCb =>
      if s.state f = some .exec then none
      else some ([.executed w e], (s.setState f .exec).setPhase w (.running f isCb))
  | .yield how, .running f isCb => (s.yield w f isCb how).map fun s => ([], s)
  | .save, .saving f isCb => some ([], s.setPhase w (.returned f isCb))
  | .decrement, .returned f isCb =>
      some ([], { s with activeThreadCount := s.activeThreadCount - 1 }.setPhase w
        (.decremented f isCb))
  | .settle, .decremented f isCb => some ([], s.settle w f isCb)
  | .requeue, .requeue f isCb => some (s.requeue w f isCb)
  | .tickle, .requeued .called =>
      some ([], s.setPhase w (if s.hasIdleThreads then .requeued .writing else .polling))
  | .write, .requeued .writing => some ([], { s with pipe := s.pipe + 1 }.setPhase w .polling)
  -- `idle` returns, and `run` looks at the queue once more
  | .finishIdle, .idle =>
      if s.stopping then
        some ([], { s with idleThreadCount := s.idleThreadCount - 1 }.setWorker w
          { s.workers w with phase := .polling, idleTerm := true })
      else none
  | .epollWait blocks, .idle => some ([], s.setPhase w (if blocks then .waiting else .woken))
  | .wake, .waiting => some ([], s.setPhase w .woken)
  | .drain, .woken => some ([], { s with pipe := 0 })
  | .leaveIdle, .woken =>
      some ([], { s with idleThreadCount := s.idleThreadCount - 1 }.setPhase w .polling)
  | _, _ => none

/-- The steps of the users of a scheduler and of its workers. -/
inductive Op
  | create (f : Nat)
  | schedule (ft : Option FiberAndThread)
  | scheduleAll (tasks : List (Option Task))
  | callTickle
  | tickle
  | write
  | start
  | setAutoStop
  | setStopping
  | worker (w : Nat) (a : Act)
  deriving DecidableEq, Repr

/-- `schedule` from outside `run`, up to the call of `tickle`. -/
def scheduled (r : List Entry × Bool × Workers) : List TaskEvent × Workers :=
  (r.1.map .pushed, { r.2.2 with called := r.2.2.called + r.2.1.toNat })

/-- One step. -/
def step : Machine.Step Workers Op (List TaskEvent)
  | s, .create f => if s.state f = none then some ([], s.setState f .init) else none
  | s, .schedule ft => some (scheduled (s.scheduleAll [ft]))
  | s, .scheduleAll tasks =>
      some (scheduled (s.scheduleAll (tasks.map fun task => task.map fun t => ⟨t, none⟩)))
  | s, .callTickle => some ([], { s with called := s.called + 1 })
  | s, .tickle =>
      if 0 < s.called then
        some ([], { s with
          called := s.called - 1
          writing := s.writing + s.hasIdleThreads.toNat })
      else none
  | s, .write =>
      if 0 < s.writing then some ([], { s with writing := s.writing - 1, pipe := s.pipe + 1 })
      else none
  | s, .start => if s.isStopping then some ([], { s with isStopping := false }) else none
  | s, .setAutoStop => some ([], { s with autoStop := true })
  | s, .setStopping => some ([], { s with isStopping := true })
  | s, .worker w a => if w < s.threads then s.act w a (s.workers w).phase else none

/-- The worker may run the entry. -/
def Allowed (s : Workers) (w : Nat) (e : Entry) : Prop :=
  bound w e = false ∧ s.executing e = false

instance (s : Workers) (w : Nat) (e : Entry) : Decidable (s.Allowed w e) :=
  inferInstanceAs (Decidable (_ ∧ _))

variable {s t : Workers} {w : Nat}

/-- The search takes the first entry that the worker may run. -/
theorem search_some {e : Entry} :
    ∀ {l : List Entry}, (s.search w l).1 = some e →
      ∃ pre post, l = pre ++ e :: post ∧ (s.search w l).2.1 = pre ++ post ∧
        (∀ x ∈ pre, ¬ s.Allowed w x) ∧ s.Allowed w e := by
  intro l
  induction l with
  | nil => exact nofun
  | cons x l ih =>
      intro h
      by_cases hbound : bound w x = true
      · simp only [search, hbound, if_true] at h ⊢
        obtain ⟨pre, post, hl, hrest, hpre, he⟩ := ih h
        refine ⟨x :: pre, post, by simp [hl], by simp [hrest], ?_, he⟩
        simpa [Allowed, hbound] using hpre
      · by_cases hexec : s.executing x = true
        · simp only [search, hbound, hexec, if_true] at h ⊢
          obtain ⟨pre, post, hl, hrest, hpre, he⟩ := ih h
          refine ⟨x :: pre, post, by simp [hl], by simp [hrest], ?_, he⟩
          simpa [Allowed, hexec] using hpre
        · simp only [search, hbound, hexec] at h ⊢
          cases h
          exact ⟨[], l, rfl, rfl, by simp, Bool.not_eq_true _ ▸ hbound, Bool.not_eq_true _ ▸ hexec⟩

/-- It finds nothing when there is nothing for the worker, and remembers
whether there is something for another one. -/
theorem search_none :
    ∀ {l : List Entry}, (s.search w l).1 = none →
      (s.search w l).2.1 = l ∧ (∀ x ∈ l, ¬ s.Allowed w x) ∧
        ((s.search w l).2.2 = true ↔ ∃ x ∈ l, bound w x = true) := by
  intro l
  induction l with
  | nil => simp [search]
  | cons x l ih =>
      intro h
      by_cases hbound : bound w x = true
      · simp only [search, hbound, if_true] at h ⊢
        obtain ⟨hrest, hnone, -⟩ := ih h
        exact ⟨by simp [hrest], by simpa [Allowed, hbound] using hnone, by simp [hbound]⟩
      · by_cases hexec : s.executing x = true
        · simp only [search, hbound, hexec, if_true] at h ⊢
          obtain ⟨hrest, hnone, htickle⟩ := ih h
          exact ⟨by simp [hrest], by simpa [Allowed, hexec] using hnone, by simp [hbound, htickle]⟩
        · simp [search, hbound, hexec] at h

/-- What is pushed under one lock, and when `tickle` is needed. -/
theorem scheduleAll_spec :
    ∀ (fts : List (Option FiberAndThread)) (s : Workers),
      (s.scheduleAll fts).2.2 =
          { s with
            fibers := s.fibers ++ (s.scheduleAll fts).1
            nextId := s.nextId + (s.scheduleAll fts).1.length } ∧
        (s.scheduleAll fts).1.map Entry.id = List.range' s.nextId (s.scheduleAll fts).1.length ∧
        (s.scheduleAll fts).2.1 = (s.fibers.isEmpty && !fts.isEmpty) := by
  intro fts
  induction fts with
  | nil => simp [scheduleAll]
  | cons ft fts ih =>
      intro s
      cases ft with
      | none =>
          obtain ⟨hstate, hid, hneed⟩ := ih s
          refine ⟨hstate, hid, ?_⟩
          simp only [scheduleAll, scheduleNoLock, hneed]
          cases s.fibers.isEmpty <;> simp
      | some ft =>
          obtain ⟨hstate, hid, hneed⟩ := ih (s.scheduleNoLock (some ft)).2.2
          simp only [scheduleNoLock] at hstate hid hneed
          simp only [scheduleAll, scheduleNoLock, hstate, hneed]
          refine ⟨?_, ?_, ?_⟩
          · simp [Nat.add_assoc, Nat.add_comm]
          · simp [List.range'_succ, hid]
          · simp

/-- What the steps outside the workers leave alone. -/
structure Outside (s t : Workers) : Prop where
  workers : t.workers = s.workers
  threads : t.threads = s.threads
  activeThreadCount : t.activeThreadCount = s.activeThreadCount
  idleThreadCount : t.idleThreadCount = s.idleThreadCount

/-- A step is made outside the workers or by one of them. -/
theorem step_cases {op : Op} {es : List TaskEvent} (h : step s op = some (es, t)) :
    Outside s t ∨ ∃ w a, op = .worker w a ∧ w < s.threads ∧
      s.act w a (s.workers w).phase = some (es, t) := by
  cases op with
  | worker w a =>
      obtain ⟨hw, hact⟩ := Option.ite_none_right_eq_some.mp h
      exact .inr ⟨w, a, rfl, hw, hact⟩
  | schedule ft =>
      obtain ⟨hstate, -, -⟩ := scheduleAll_spec [ft] s
      cases h
      exact .inl (by constructor <;> simp [hstate])
  | scheduleAll tasks =>
      obtain ⟨hstate, -, -⟩ :=
        scheduleAll_spec (tasks.map fun task => task.map fun t => ⟨t, none⟩) s
      cases h
      exact .inl (by constructor <;> simp [hstate])
  | callTickle =>
      cases h
      exact .inl ⟨rfl, rfl, rfl, rfl⟩
  | setAutoStop =>
      cases h
      exact .inl ⟨rfl, rfl, rfl, rfl⟩
  | setStopping =>
      cases h
      exact .inl ⟨rfl, rfl, rfl, rfl⟩
  | _ =>
      obtain ⟨-, ⟨⟩⟩ := Option.ite_none_right_eq_some.mp h
      exact .inl ⟨rfl, rfl, rfl, rfl⟩

@[simp]
theorem setPhase_workers (p : RunPhase) : ((s.setPhase w p).workers w).phase = p := by
  simp [setPhase, setWorker]

/-- The phases after the longer steps. -/
theorem yield_phase {f : Nat} {isCb : Bool} {how : Scheduler.Yield}
    (h : s.yield w f isCb how = some t) : (t.workers w).phase = .saving f isCb := by
  cases how with
  | toHold =>
      obtain ⟨-, ⟨⟩⟩ := Option.ite_none_right_eq_some.mp h
      exact setPhase_workers _
  | toReady =>
      obtain ⟨-, ⟨⟩⟩ := Option.ite_none_right_eq_some.mp h
      exact setPhase_workers _
  | _ =>
      cases h
      exact setPhase_workers _

theorem settle_phase (f : Nat) (isCb : Bool) :
    ((s.settle w f isCb).workers w).phase =
      if s.state f = some .ready then .requeue f isCb else .polling := by
  simp only [settle]
  split
  · exact setPhase_workers _
  · split
    · split
      · exact setPhase_workers _
      · exact setPhase_workers _
    · split
      · simp [setWorker, setState]
      · exact setPhase_workers _

theorem requeue_phase (f : Nat) (isCb : Bool) :
    ((s.requeue w f isCb).2.workers w).phase =
      if s.fibers.isEmpty then .requeued .called else .polling := by
  simp [requeue, scheduleNoLock, setWorker]

end Workers

end Mingo
