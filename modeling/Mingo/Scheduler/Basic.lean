import Mathlib.Data.List.Basic
import Mingo.Lib.Machine

/-!
# Fibers and the workers that run them

The worker loop `Scheduler::run` of scheduler.cpp and the context switches of
fiber.cpp, as the interleaving of any number of workers.  A step is what one
thread does without being interrupted: taking an entry off the queue under the
lock, `Fiber::swapIn`, the write of `m_state` by which the body of a fiber
gives up the processor, the context save of `swapOut`, and the fix-up of
`m_state` that `run` makes when `swapIn` returns.  Between its yield and its
context save a fiber is still on the stack of its worker.

`m_state` is read and written by all of them without a lock.
-/

namespace Mingo

/-- What a scheduler can be given to run. -/
inductive Task
  | fiber (f : Nat)
  | cb (c : Nat)
  deriving DecidableEq, Repr

/-- `Fiber::State`. -/
inductive FiberState
  | init
  | hold
  | exec
  | term
  | ready
  | except
  deriving DecidableEq, Repr

/-- `FiberAndThread`: a task and the worker it is bound to, if any. -/
structure FiberAndThread where
  task : Task
  thread : Option Nat
  deriving DecidableEq, Repr

/-- The branch of `run` that swaps a fiber in. -/
inductive Role
  | fiber
  | cbFiber
  | idleFiber
  deriving DecidableEq, Repr

/-- Where a worker stands in `run`. -/
inductive WorkerPhase
  /-- `run` is not entered yet -/
  | stopped
  /-- before the queue is searched -/
  | polling
  /-- a fiber is taken off the queue -/
  | fiberTaken (f : Nat)
  /-- a callback is taken off the queue -/
  | cbTaken (c : Nat)
  /-- nothing was found in the queue -/
  | nothingTaken
  /-- before `swapIn` -/
  | entering (f : Nat) (role : Role)
  /-- in the body of the fiber -/
  | running (f : Nat) (role : Role)
  /-- in `swapOut`, before the context is saved -/
  | saving (f : Nat) (role : Role)
  /-- `swapIn` has returned -/
  | returned (f : Nat) (role : Role)
  /-- `run` has returned -/
  | exited
  deriving DecidableEq, Repr

namespace WorkerPhase

/-- The fiber whose body the worker executes. -/
def runs : WorkerPhase → Option Nat
  | .running f _ => some f
  | _ => none

/-- The fiber on the stack of the worker whose context is not saved. -/
def unsaved : WorkerPhase → Option Nat
  | .running f _ => some f
  | .saving f _ => some f
  | _ => none

end WorkerPhase

/-- The local variables of `run`. -/
structure Worker where
  phase : WorkerPhase
  cbFiber : Option Nat
  idleFiber : Nat
  deriving DecidableEq, Repr

/-- The queue `m_fibers`, the fields `m_state` of the fibers that exist, the
workers and the two counters. -/
structure Scheduler where
  fibers : List FiberAndThread
  state : Nat → Option FiberState
  workers : Nat → Worker
  activeThreadCount : Nat
  idleThreadCount : Nat

namespace Scheduler

/-- No fiber, no task, no worker started. -/
def new : Scheduler where
  fibers := []
  state := fun _ => none
  workers := fun _ => ⟨.stopped, none, 0⟩
  activeThreadCount := 0
  idleThreadCount := 0

def setState (s : Scheduler) (f : Nat) (st : FiberState) : Scheduler :=
  { s with state := fun g => if g = f then some st else s.state g }

def setWorker (s : Scheduler) (w : Nat) (worker : Worker) : Scheduler :=
  { s with workers := fun v => if v = w then worker else s.workers v }

def setPhase (s : Scheduler) (w : Nat) (p : WorkerPhase) : Scheduler :=
  s.setWorker w { s.workers w with phase := p }

/-- `scheduleNoLock`: whether `tickle` is needed. -/
def schedule (s : Scheduler) (ft : FiberAndThread) : Bool × Scheduler :=
  (s.fibers.isEmpty, { s with fibers := s.fibers ++ [ft] })

/-- The search of `run` through the queue: the entry taken, the others, and
`tickle_me`. -/
def search (s : Scheduler) (w : Nat) :
    List FiberAndThread → Option Task × List FiberAndThread × Bool
  | [] => (none, [], false)
  | ft :: rest =>
      if ft.thread ≠ none ∧ ft.thread ≠ some w then
        let r := search s w rest
        (r.1, ft :: r.2.1, true)
      else
        match ft.task with
        | .cb c => (some (.cb c), rest, !rest.isEmpty)
        | .fiber f =>
            if s.state f = some .exec then
              let r := search s w rest
              (r.1, ft :: r.2.1, r.2.2)
            else (some (.fiber f), rest, !rest.isEmpty)

/-- How the body of a fiber gives up the processor. -/
inductive Yield
  /-- `YieldToHold` -/
  | toHold
  /-- `YieldToReady` -/
  | toReady
  /-- `swapOut` alone, as in `IOManager::idle` -/
  | swapOut
  /-- `MainFunc` after the callback has returned -/
  | term
  /-- `MainFunc` after the callback has thrown -/
  | except
  deriving DecidableEq, Repr

/-- The steps: what the users of a scheduler and its workers do. -/
inductive Op
  | create (f : Nat)
  | schedule (ft : FiberAndThread)
  | start (w idleFiber : Nat)
  | dequeue (w : Nat)
  | dispatch (w fresh : Nat)
  | swapIn (w : Nat)
  | yield (w : Nat) (how : Yield)
  | save (w : Nat)
  | fixUp (w : Nat)
  deriving DecidableEq, Repr

/-- The search under the lock. -/
def dequeue (s : Scheduler) (w : Nat) : Bool × Scheduler :=
  let r := s.search w s.fibers
  let s := { s with fibers := r.2.1 }
  match r.1 with
  | none => (r.2.2, s.setPhase w .nothingTaken)
  | some (.fiber f) =>
      (r.2.2, { s with activeThreadCount := s.activeThreadCount + 1 }.setPhase w (.fiberTaken f))
  | some (.cb c) =>
      (r.2.2, { s with activeThreadCount := s.activeThreadCount + 1 }.setPhase w (.cbTaken c))

/-- From the search to the next `swapIn`.  A callback is run on the worker's
`cb_fiber`, which is reset, or on a new fiber at the address `fresh`. -/
def dispatch (s : Scheduler) (w fresh : Nat) : Option Scheduler :=
  match (s.workers w).phase with
  | .fiberTaken f =>
      if s.state f = some .term ∨ s.state f = some .except then
        some ({ s with activeThreadCount := s.activeThreadCount - 1 }.setPhase w .polling)
      else some (s.setPhase w (.entering f .fiber))
  | .cbTaken _ =>
      match (s.workers w).cbFiber with
      | some f =>
          if s.state f = some .term ∨ s.state f = some .except ∨ s.state f = some .init then
            some ((s.setState f .init).setPhase w (.entering f .cbFiber))
          else none
      | none =>
          if s.state fresh = none then
            some ((s.setState fresh .init).setWorker w
              { s.workers w with phase := .entering fresh .cbFiber, cbFiber := some fresh })
          else none
  | .nothingTaken =>
      if s.state (s.workers w).idleFiber = some .term then some (s.setPhase w .exited)
      else
        some ({ s with idleThreadCount := s.idleThreadCount + 1 }.setPhase w
          (.entering (s.workers w).idleFiber .idleFiber))
  | _ => none

/-- `Fiber::swapIn`, with its assertion. -/
def swapIn (s : Scheduler) (w : Nat) : Option Scheduler :=
  match (s.workers w).phase with
  | .entering f role =>
      if s.state f = some .exec then none
      else some ((s.setState f .exec).setPhase w (.running f role))
  | _ => none

/-- The body of a fiber gives up the processor; the two `Yield` functions
assert that it is running. -/
def yield (s : Scheduler) (w : Nat) (how : Yield) : Option Scheduler :=
  match (s.workers w).phase with
  | .running f role =>
      let s' := s.setPhase w (.saving f role)
      match how with
      | .toHold => if s.state f = some .exec then some (s'.setState f .hold) else none
      | .toReady => if s.state f = some .exec then some (s'.setState f .ready) else none
      | .swapOut => some s'
      | .term => some (s'.setState f .term)
      | .except => some (s'.setState f .except)
  | _ => none

/-- The context save of `swapOut`, by which `swapIn` returns. -/
def save (s : Scheduler) (w : Nat) : Option Scheduler :=
  match (s.workers w).phase with
  | .saving f role => some (s.setPhase w (.returned f role))
  | _ => none

/-- What `run` does with the fiber when `swapIn` has returned. -/
def fixUp (s : Scheduler) (w : Nat) : Option (Bool × Scheduler) :=
  match (s.workers w).phase with
  | .returned f .fiber =>
      let s := { s with activeThreadCount := s.activeThreadCount - 1 }.setPhase w .polling
      if s.state f = some .ready then some (s.schedule ⟨.fiber f, none⟩)
      else if s.state f ≠ some .term ∧ s.state f ≠ some .except then
        some (false, s.setState f .hold)
      else some (false, s)
  | .returned f .cbFiber =>
      let s := { s with activeThreadCount := s.activeThreadCount - 1 }.setPhase w .polling
      let dropped := s.setWorker w { s.workers w with cbFiber := none }
      if s.state f = some .ready then some (dropped.schedule ⟨.fiber f, none⟩)
      else if s.state f = some .except ∨ s.state f = some .term then
        some (false, s.setState f .init)
      else some (false, dropped.setState f .hold)
  | .returned f .idleFiber =>
      let s := { s with idleThreadCount := s.idleThreadCount - 1 }.setPhase w .polling
      if s.state f ≠ some .term ∧ s.state f ≠ some .except then
        some (false, s.setState f .hold)
      else some (false, s)
  | _ => none

/-- One step, and whether it calls `tickle`; undefined when the thread is not
there or an assertion fails. -/
def step : Machine.Step Scheduler Op Bool
  | s, .create f => if s.state f = none then some (false, s.setState f .init) else none
  | s, .schedule ft => some (s.schedule ft)
  | s, .start w idleFiber =>
      if (s.workers w).phase = .stopped ∧ s.state idleFiber = none then
        some (false, (s.setState idleFiber .init).setWorker w ⟨.polling, none, idleFiber⟩)
      else none
  | s, .dequeue w => if (s.workers w).phase = .polling then some (s.dequeue w) else none
  | s, .dispatch w fresh => (s.dispatch w fresh).map fun s => (false, s)
  | s, .swapIn w => (s.swapIn w).map fun s => (false, s)
  | s, .yield w how => (s.yield w how).map fun s => (false, s)
  | s, .save w => (s.save w).map fun s => (false, s)
  | s, .fixUp w => s.fixUp w

end Scheduler

end Mingo
