import Mingo.Hook.Descriptor
import Mingo.IoManager.Waiters

/-!
# Hooked calls that wait: do_io, connect_with_timeout and close

The functions of hook.cpp that park a fiber until its descriptor is ready, for
any number of fibers of one `IOManager`, with the timers that limit the wait
and with `close`.  A step is one of the calls a fiber makes on its way through
the function: the call underneath, `addConditionTimer`, `addEvent`,
`YieldToHold`, `Timer::cancel`, the check of `tinfo->cancelled`.  The callback of
a timer takes steps of its own, on any worker: `OnTimer` locks the
`timer_info`, the callback reads the flag, sets it, and calls `cancelEvent`.

When a timer expires is left open, and so is what the calls underneath and
`epoll_ctl` answer.  `idle` may come with an entry of `epoll_wait` at any time,
however old it is.  The hooks are enabled throughout.
-/

namespace Mingo

def ETIMEDOUT : Nat := 110

/-- A `timer_info`: the flag, whether the call that made it still runs, and the
number of callbacks that hold it. -/
structure TimerInfo where
  cancelled : Nat
  owned : Bool
  holders : Nat
  deriving DecidableEq, Repr

/-- `weak_ptr::lock` returns null. -/
def TimerInfo.expired (i : TimerInfo) : Bool := !i.owned && i.holders == 0

/-- How far the timer of a call and its callback got. -/
inductive TimeoutState
  /-- in `m_timers` -/
  | pending
  /-- taken out of `m_timers` by `listExpiredCb`, the callback is to be run -/
  | queued
  /-- `OnTimer` holds the `timer_info` -/
  | locked
  /-- the callback has found the flag zero -/
  | checked
  /-- the callback has set the flag -/
  | marked
  /-- the callback has returned -/
  | executed
  /-- taken out of `m_timers` by `Timer::cancel` -/
  | cancelled
  deriving DecidableEq, Repr

/-- A condition timer, with what its callback has captured. -/
structure Timeout where
  info : Nat
  fd : Nat
  event : Event
  state : TimeoutState
  deriving DecidableEq, Repr

/-- The two functions that wait. -/
inductive HookedFun
  | doIo
  | connect
  deriving DecidableEq, Repr

/-- An invocation: its arguments, the timeout it has read, and the pointer to
its `timer_info`. -/
structure HookedCall where
  kind : HookedFun
  fd : Nat
  event : Event
  timeout : UInt64
  info : Nat
  deriving DecidableEq, Repr

/-- Where a fiber stands. -/
inductive HookPhase
  /-- in no hooked call -/
  | outside
  /-- before a call underneath whose result is returned as it is -/
  | direct (c : HookedCall)
  /-- at `retry`, before the call underneath -/
  | calling (c : HookedCall)
  /-- the call underneath would block -/
  | blocked (c : HookedCall)
  /-- the timer is added, if there is one -/
  | armed (c : HookedCall) (timer : Option Nat)
  /-- `addEvent` has succeeded -/
  | registered (c : HookedCall) (timer : Option Nat)
  /-- `YieldToHold` -/
  | parked (c : HookedCall) (timer : Option Nat)
  /-- running again -/
  | resumed (c : HookedCall) (timer : Option Nat)
  /-- the timer is cancelled, `tinfo->cancelled` is to be checked -/
  | disarmed (c : HookedCall)
  /-- `addEvent` has failed -/
  | refused (c : HookedCall) (timer : Option Nat)
  /-- `connect_with_timeout` before `getsockopt` -/
  | finishing (c : HookedCall)
  /-- `close` has found an `FdCtx` -/
  | closing (fd : Nat)
  /-- `close` after `cancelAll` -/
  | unregistered (fd : Nat)
  /-- `close` before `close_f` -/
  | deleted (fd : Nat)
  deriving DecidableEq, Repr

namespace HookPhase

/-- The invocation in flight. -/
def call : HookPhase → Option HookedCall
  | .direct c | .calling c | .blocked c | .armed c _ | .registered c _ | .parked c _ => some c
  | .resumed c _ | .disarmed c | .refused c _ | .finishing c => some c
  | _ => none

/-- The `timer` of the invocation. -/
def timer : HookPhase → Option Nat
  | .armed _ t | .registered _ t | .parked _ t | .resumed _ t | .refused _ t => t
  | _ => none

/-- The timer is added, and the fiber has not been woken up from the wait it is
for. -/
def awaits : HookPhase → Bool
  | .armed _ _ | .registered _ _ | .parked _ _ => true
  | _ => false

/-- Between `addEvent` and the wake-up. -/
def waits : HookPhase → Bool
  | .registered _ _ | .parked _ _ => true
  | _ => false

/-- Just before the call underneath. -/
def calls : HookPhase → Bool
  | .direct _ | .calling _ => true
  | _ => false

end HookPhase

/-- The descriptors, the event table, the fibers, and the heap with the
`timer_info`s and the timers. -/
structure Hooks where
  fds : FdManager
  io : IoManager
  phase : Nat → HookPhase
  infos : Nat → Option TimerInfo
  timeouts : Nat → Option Timeout

/-- `getTimeout`: `SO_RCVTIMEO` for a call that reads, `SO_SNDTIMEO` for one that
writes. -/
def FdCtx.getTimeout (ctx : FdCtx) : Event → UInt64
  | .read => ctx.recvTimeout
  | .write => ctx.sendTimeout

namespace FdManager

def del (m : FdManager) (fd : Nat) : FdManager :=
  { m with datas := Function.update m.datas fd none }

/-- The hooked `setsockopt` of one of the two timeouts. -/
def setTimeout (m : FdManager) (fd : Nat) (event : Event) (ms : UInt64) : FdManager :=
  match m.datas fd, event with
  | none, _ => m
  | some ctx, .read => m.setCtx fd { ctx with recvTimeout := ms }
  | some ctx, .write => m.setCtx fd { ctx with sendTimeout := ms }

/-- `close_f`. -/
def closeF (m : FdManager) (fd : Nat) : FdManager :=
  { m with kernel := Function.update m.kernel fd none }

/-- `do_io` up to `retry`; outside again when it returns `EBADF`. -/
def doIo (m : FdManager) (fd : Nat) (event : Event) (info : Nat) : HookPhase :=
  match m.datas fd with
  | none => .direct ⟨.doIo, fd, event, -1, info⟩
  | some ctx =>
      if ctx.isClosed then .outside
      else if !ctx.isSocket || ctx.userNonblock then .direct ⟨.doIo, fd, event, -1, info⟩
      else .calling ⟨.doIo, fd, event, ctx.getTimeout event, info⟩

/-- `connect_with_timeout` up to `connect_f`. -/
def connectWithTimeout (m : FdManager) (fd : Nat) (timeout : UInt64) (info : Nat) : HookPhase :=
  match m.datas fd with
  | none => .outside
  | some ctx =>
      if ctx.isClosed then .outside
      else if !ctx.isSocket then .direct ⟨.connect, fd, .write, timeout, info⟩
      else if ctx.userNonblock then .direct ⟨.connect, fd, .write, timeout, info⟩
      else .calling ⟨.connect, fd, .write, timeout, info⟩

end FdManager

/-- A worker takes a fiber off the queue. -/
def IoManager.takeFiber (m : IoManager) (f : Nat) : IoManager :=
  { m with scheduled := m.scheduled.eraseP fun x => x.2 = .fiber f }

namespace Hooks

/-- What the call underneath answers: `EINTR`, `EAGAIN` or `EINPROGRESS`, or
anything else. -/
inductive Answer
  | interrupted
  | wouldBlock
  | result
  deriving DecidableEq, Repr

/-- The steps of a fiber.  Pointers to the heap are chosen by the allocator;
`iom` says whether `close` runs on an `IOManager`. -/
inductive Act
  | doIo (fd : Nat) (event : Event) (info : Nat)
  | connect (fd : Nat) (timeout : UInt64) (info : Nat)
  | call (answer : Answer)
  | addConditionTimer (timer : Nat)
  | addEvent (ctl : Bool)
  | yieldToHold
  | resume
  | cancelTimer
  | check
  | getsockopt (ok : Bool)
  | close (fd : Nat)
  | cancelAll (iom ctl : Bool)
  | del
  | closeF
  deriving DecidableEq, Repr

/-- A step of a fiber; of a timer or its callback; of `idle`; the calls
`Socket::cancelRead` and `Socket::cancelAll`; calls on descriptors that do not
wait; a descriptor opened in the kernel. -/
inductive Op
  | fiber (f : Nat) (a : Act)
  | timeout (t : Nat) (ctl : Bool)
  | idle (event : IoManager.EpollEvent) (ctl : Bool)
  | cancelEvent (fd : Nat) (event : Event) (ctl : Bool)
  | cancelAll (fd : Nat) (ctl : Bool)
  | manage (op : FdManager.Op)
  | setTimeout (fd : Nat) (event : Event) (ms : UInt64)
  | socket (fd : Nat) (d : Descriptor)
  deriving DecidableEq, Repr

/-- What can be observed: a call underneath, with the invocation that makes it
and the descriptor; an invocation that returns after it has waited, and whether
it returns an error. -/
inductive Out
  | done
  | syscall (info fd : Nat)
  | returned (info : Nat) (ok : Bool)
  deriving DecidableEq, Repr

def new : Hooks where
  fds := ⟨fun _ => none, fun _ => none⟩
  io := IoManager.new
  phase := fun _ => .outside
  infos := fun _ => none
  timeouts := fun _ => none

def setPhase (s : Hooks) (f : Nat) (p : HookPhase) : Hooks :=
  { s with phase := Function.update s.phase f p }

def setInfo (s : Hooks) (p : Nat) (i : TimerInfo) : Hooks :=
  { s with infos := Function.update s.infos p (some i) }

def setTimer (s : Hooks) (t : Nat) (x : Timeout) : Hooks :=
  { s with timeouts := Function.update s.timeouts t (some x) }

def setIo (s : Hooks) (io : IoManager) : Hooks := { s with io := io }

/-- `tinfo->cancelled`. -/
def cancelled (s : Hooks) (info : Nat) : Nat := ((s.infos info).map TimerInfo.cancelled).getD 0

/-- The fiber enters a function, with a new `timer_info`. -/
def enter (s : Hooks) (f info : Nat) (p : HookPhase) : Option (Out × Hooks) :=
  if s.infos info = none then
    match p.call with
    | none => some (.returned info false, s)
    | some _ => some (.done, (s.setInfo info ⟨0, true, 0⟩).setPhase f p)
  else none

/-- The invocation returns and lets go of its `timer_info`. -/
def leave (s : Hooks) (f : Nat) (c : HookedCall) : Hooks :=
  { s with
    phase := Function.update s.phase f .outside
    infos := Function.update s.infos c.info
      ((s.infos c.info).map fun i => { i with owned := false }) }

/-- The answer to the call underneath: `do_io` repeats a call that was
interrupted. -/
def answer (s : Hooks) (f : Nat) (c : HookedCall) : Answer → Hooks
  | .interrupted => if c.kind = .doIo then s else s.leave f c
  | .wouldBlock => s.setPhase f (.blocked c)
  | .result => s.leave f c

/-- `timer->cancel()`, if there is a timer. -/
def cancelTimer (s : Hooks) (timer : Option Nat) : Hooks :=
  match timer with
  | none => s
  | some t =>
      match s.timeouts t with
      | none => s
      | some x => if x.state = .pending then s.setTimer t { x with state := .cancelled } else s

/-- A step of the fiber `f`, which stands there. -/
def act (s : Hooks) (f : Nat) : Act → HookPhase → Option (Out × Hooks)
  | .doIo fd event info, .outside => s.enter f info (s.fds.doIo fd event info)
  | .connect fd timeout info, .outside =>
      s.enter f info (s.fds.connectWithTimeout fd timeout info)
  | .call _, .direct c => some (.syscall c.info c.fd, s.leave f c)
  | .call answer, .calling c => some (.syscall c.info c.fd, s.answer f c answer)
  | .addConditionTimer t, .blocked c =>
      if c.timeout = -1 then some (.done, s.setPhase f (.armed c none))
      else if s.timeouts t = none then
        some (.done,
          (s.setTimer t ⟨c.info, c.fd, c.event, .pending⟩).setPhase f (.armed c (some t)))
      else none
  | .addEvent ctl, .armed c timer =>
      (s.io.addEvent c.fd c.event none 0 f ctl).toOption.map fun r =>
        (.done, (s.setIo r.2).setPhase f (if r.1 then .registered c timer else .refused c timer))
  | .yieldToHold, .registered c timer => some (.done, s.setPhase f (.parked c timer))
  | .resume, .parked c timer =>
      if Task.fiber f ∈ s.io.tasks then
        some (.done, (s.setIo (s.io.takeFiber f)).setPhase f (.resumed c timer))
      else none
  | .cancelTimer, .resumed c timer => some (.done, (s.cancelTimer timer).setPhase f (.disarmed c))
  | .cancelTimer, .refused c timer =>
      match c.kind with
      | .doIo => some (.returned c.info false, (s.cancelTimer timer).leave f c)
      | .connect => some (.done, (s.cancelTimer timer).setPhase f (.finishing c))
  | .check, .disarmed c =>
      if s.cancelled c.info ≠ 0 then some (.returned c.info false, s.leave f c)
      else
        match c.kind with
        | .doIo => some (.done, s.setPhase f (.calling c))
        | .connect => some (.done, s.setPhase f (.finishing c))
  | .getsockopt ok, .finishing c => some (.returned c.info ok, s.leave f c)
  | .close fd, .outside =>
      some (.done, s.setPhase f (if (s.fds.datas fd).isSome then .closing fd else .deleted fd))
  | .cancelAll iom ctl, .closing fd =>
      if iom then
        (s.io.cancelAll fd ctl).toOption.map fun r =>
          (.done, (s.setIo r.2).setPhase f (.unregistered fd))
      else some (.done, s.setPhase f (.unregistered fd))
  | .del, .unregistered fd =>
      some (.done, { s with fds := s.fds.del fd }.setPhase f (.deleted fd))
  | .closeF, .deleted fd =>
      some (.done, { s with fds := s.fds.closeF fd }.setPhase f .outside)
  | _, _ => none

/-- A step of the timer `t` or of its callback. -/
def fire (s : Hooks) (t : Nat) (ctl : Bool) (x : Timeout) (i : TimerInfo) : Option Hooks :=
  match x.state with
  | .pending => some (s.setTimer t { x with state := .queued })
  | .queued =>
      if i.expired then some (s.setTimer t { x with state := .executed })
      else some ((s.setInfo x.info { i with holders := i.holders + 1 }).setTimer t
        { x with state := .locked })
  | .locked =>
      if i.cancelled ≠ 0 then
        some ((s.setInfo x.info { i with holders := i.holders - 1 }).setTimer t
          { x with state := .executed })
      else some (s.setTimer t { x with state := .checked })
  | .checked =>
      some ((s.setInfo x.info { i with cancelled := ETIMEDOUT }).setTimer t
        { x with state := .marked })
  | .marked =>
      (s.io.cancelEvent x.fd x.event ctl).toOption.map fun r =>
        ((s.setIo r.2).setInfo x.info { i with holders := i.holders - 1 }).setTimer t
          { x with state := .executed }
  | .executed => none
  | .cancelled => none

/-- One step; undefined where the code runs into a fault. -/
def step : Machine.Step Hooks Op Out
  | s, .fiber f a => s.act f a (s.phase f)
  | s, .timeout t ctl =>
      match s.timeouts t with
      | none => none
      | some x => ((s.infos x.info).bind (s.fire t ctl x)).map fun s' => (.done, s')
  | s, .idle event ctl => (s.io.idleEvent event ctl).toOption.map fun r => (.done, s.setIo r.2)
  | s, .cancelEvent fd event ctl =>
      (s.io.cancelEvent fd event ctl).toOption.map fun r => (.done, s.setIo r.2)
  | s, .cancelAll fd ctl => (s.io.cancelAll fd ctl).toOption.map fun r => (.done, s.setIo r.2)
  | s, .manage op => (FdManager.step s.fds op).map fun r => (.done, { s with fds := r.2 })
  | s, .setTimeout fd event ms => some (.done, { s with fds := s.fds.setTimeout fd event ms })
  | s, .socket fd d =>
      if s.fds.kernel fd = none then some (.done, { s with fds := s.fds.setKernel fd d }) else none

end Hooks

end Mingo
