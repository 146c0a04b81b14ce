import Mathlib.Algebra.Group.Nat.Defs
import Mathlib.Logic.Function.Basic
import Mingo.Timer.Expiry

/-!
# The idle loops that wait for timers

`IOManager::idle` of iomanager.cpp for any number of workers, with the calls of
the timers they wait for.  A worker asks `getNextTimer` how long it may sleep,
blocks in `epoll_wait`, and takes the expired timers out when it returns.  A
thread that has put a timer at the front of the set calls `tickle` after it has
released the lock; `tickle` looks at `m_idleThreadCount` and writes to the pipe
that wakes a worker.

The clock is part of the state.  A call that reads it before it takes the lock
is given its reading.  The tasks that workers run, and what else they do
outside `idle`, are not modelled; the scheduler may write to the pipe too.
-/

namespace Mingo

/-- Where a worker stands in `idle`. -/
inductive IdlePhase
  /-- in `run`, outside `idle` -/
  | outside
  /-- counted in `m_idleThreadCount`, before `getNextTimer` -/
  | entered
  /-- `getNextTimer` has returned: the time-out, and the point in time it
  stands for -/
  | armed (timeout : UInt64) (deadline : Nat)
  /-- blocked in `epoll_wait` -/
  | blocked (deadline : Nat)
  /-- `epoll_wait` has returned -/
  | woken
  /-- `listExpiredCb` has returned -/
  | expired
  /-- `idle` has returned -/
  | finished
  deriving DecidableEq, Repr

/-- The timers, the workers, the calls of `onTimerInsertedAtFront` that have
not looked at `m_idleThreadCount` or not written to the pipe yet, the bytes in
the pipe, and the clock. -/
structure IdleLoops (Cb : Type) where
  threads : Nat
  manager : TimerManager Cb
  workers : Nat → IdlePhase
  idleThreadCount : Nat
  called : Nat
  writing : Nat
  pipe : Nat
  clock : UInt64

namespace IdleLoops

variable {Cb : Type}

/-- `n` workers and no timer, at clock reading `now`. -/
def new (n : Nat) (now : UInt64) : IdleLoops Cb where
  threads := n
  manager := TimerManager.new now
  workers := fun _ => .outside
  idleThreadCount := 0
  called := 0
  writing := 0
  pipe := 0
  clock := now

def setPhase (s : IdleLoops Cb) (w : Nat) (p : IdlePhase) : IdleLoops Cb :=
  { s with workers := Function.update s.workers w p }

/-- `(int)x`. -/
def toInt (x : UInt64) : Int := (BitVec.ofNat 32 x.toNat).toInt

/-- The time-out that `idle` passes to `epoll_wait`. -/
def epollTimeout (next : UInt64) : Int :=
  if next ≠ -1 then toInt (if toInt next > 3000 then 3000 else next) else 3000

/-- The steps of a worker. -/
inductive Act
  | enterIdle
  | getNextTimer
  | finish
  | epollWait (ready : Bool)
  | wake
  | listExpiredCb (now : UInt64) (nowTimer : Nat)
  | drain
  | leaveIdle
  deriving DecidableEq, Repr

/-- A step of a worker that stands there.  `idle` returns only when there is no
time-out; `epoll_wait` blocks unless its time-out is zero or something is
ready. -/
def act (s : IdleLoops Cb) (w : Nat) : Act → IdlePhase → Option (IdleLoops Cb)
  | .enterIdle, .outside =>
      some ({ s with idleThreadCount := s.idleThreadCount + 1 }.setPhase w .entered)
  | .getNextTimer, .entered =>
      let r := s.manager.getNextTimer s.clock
      some ({ s with manager := r.2 }.setPhase w (.armed r.1 (s.clock.toNat + r.1.toNat)))
  | .finish, .armed timeout _ =>
      if timeout = -1 then
        some ({ s with idleThreadCount := s.idleThreadCount - 1 }.setPhase w .finished)
      else none
  | .epollWait ready, .armed timeout deadline =>
      some (s.setPhase w (if ready || epollTimeout timeout = 0 then .woken else .blocked deadline))
  | .wake, .blocked _ => some (s.setPhase w .woken)
  | .listExpiredCb now nowTimer, .woken =>
      some ({ s with manager := (s.manager.listExpiredCb now nowTimer).2 }.setPhase w .expired)
  | .drain, .expired => some { s with pipe := 0 }
  | .leaveIdle, .expired =>
      some ({ s with idleThreadCount := s.idleThreadCount - 1 }.setPhase w .outside)
  | _, _ => none

/-- Time passes; a timer call; `tickle` of a thread that has found its timer at
the front; a write to the pipe by the scheduler; a step of a worker. -/
inductive Op (Cb : Type)
  | tick (now : UInt64)
  | timer (op : TimerManager.Op Cb)
  | tickle
  | write
  | notify
  | worker (w : Nat) (a : Act)

/-- The call has put a timer at the front and goes on to call `tickle`. -/
def atFront : TimerManager.Out Cb → Bool
  | .timer _ atFront => atFront
  | .result _ atFront => atFront
  | _ => false

/-- `listExpiredCb` is called by the workers only. -/
def isExpiry : TimerManager.Op Cb → Bool
  | .listExpiredCb _ _ => true
  | _ => false

/-- One step. -/
def step : Machine.Step (IdleLoops Cb) (Op Cb) Unit
  | s, .tick now => if s.clock ≤ now then some ((), { s with clock := now }) else none
  | s, .timer op =>
      if isExpiry op then none
      else
        match TimerManager.step s.manager op with
        | none => none
        | some (out, m) =>
            some ((), { s with manager := m, called := s.called + (atFront out).toNat })
  | s, .tickle =>
      if 0 < s.called then
        some ((), { s with
          called := s.called - 1
          writing := s.writing + (decide (0 < s.idleThreadCount)).toNat })
      else none
  | s, .write =>
      if 0 < s.writing then some ((), { s with writing := s.writing - 1, pipe := s.pipe + 1 })
      else none
  | s, .notify => some ((), { s with pipe := s.pipe + 1 })
  | s, .worker w a =>
      if w < s.threads then (s.act w a (s.workers w)).map fun s => ((), s) else none

/-- `m_next` of a timer armed at `start` does not overflow. -/
def Fits (start ms : UInt64) : Prop := start.toNat + ms.toNat < 2 ^ 64

/-- What the environment owes a call: what the timers require, a reading of the
clock that is not later than the clock (equal to it under the lock), and no
overflow of an `m_next` that the call computes. -/
def Valid (s : IdleLoops Cb) : Op Cb → Prop
  | .timer (.addTimer now ms cb recurring a) =>
      s.manager.Valid (.addTimer now ms cb recurring a) ∧ now ≤ s.clock ∧ Fits now ms
  | .timer (.refresh a now) =>
      now = s.clock ∧ ∀ t ∈ s.manager.heap a, t.cb.isSome → Fits now t.ms
  | .timer (.reset a ms fromNow now) =>
      now = s.clock ∧ ∀ t ∈ s.manager.heap a, t.cb.isSome →
        Fits (if fromNow then now else t.next - t.ms) ms
  | .timer (.getNextTimer now) => now = s.clock
  | .timer op => s.manager.Valid op
  | .worker _ (.listExpiredCb now nowTimer) =>
      s.manager.Valid (.listExpiredCb now nowTimer) ∧ now ≤ s.clock ∧
        ∀ a ∈ s.manager.expiring now, ∀ t ∈ s.manager.heap a, t.recurring = true → Fits now t.ms
  | _ => True

instance (start ms : UInt64) : Decidable (Fits start ms) :=
  inferInstanceAs (Decidable (_ < _))

instance (s : IdleLoops Cb) : DecidablePred s.Valid
  | .timer (.addTimer now ms cb recurring a) =>
      inferInstanceAs (Decidable (s.manager.Valid (.addTimer now ms cb recurring a) ∧ _ ∧ _))
  | .timer (.refresh a now) =>
      inferInstanceAs (Decidable (_ ∧ ∀ t ∈ s.manager.heap a, t.cb.isSome → Fits now t.ms))
  | .timer (.reset a ms fromNow now) =>
      inferInstanceAs (Decidable (_ ∧ ∀ t ∈ s.manager.heap a, t.cb.isSome →
        Fits (if fromNow then now else t.next - t.ms) ms))
  | .timer (.getNextTimer _) => inferInstanceAs (Decidable (_ = _))
  | .timer (.cancel a) => inferInstanceAs (Decidable (s.manager.Valid (.cancel a)))
  | .timer (.listExpiredCb now nowTimer) =>
      inferInstanceAs (Decidable (s.manager.Valid (.listExpiredCb now nowTimer)))
  | .timer (.release a) => inferInstanceAs (Decidable (s.manager.Valid (.release a)))
  | .worker _ (.listExpiredCb now nowTimer) =>
      inferInstanceAs (Decidable (s.manager.Valid (.listExpiredCb now nowTimer) ∧ _ ∧
        ∀ a ∈ s.manager.expiring now, ∀ t ∈ s.manager.heap a, t.recurring = true → Fits now t.ms))
  | .worker _ .enterIdle | .worker _ .getNextTimer | .worker _ .finish | .worker _ (.epollWait _)
  | .worker _ .wake | .worker _ .drain | .worker _ .leaveIdle | .tick _ | .tickle | .write
  | .notify => isTrue trivial

end IdleLoops

end Mingo
