import Mathlib.Data.List.Basic
import Mingo.Lib.Machine
import Mingo.Scheduler.Basic

/-!
# The event table of iomanager.cpp

An `IOManager` keeps one `FdContext` per file descriptor: the mask of the
events that are registered, and for each of `READ` and `WRITE` an
`EventContext` that says whom to wake up.  Contexts are allocated on the heap
and never freed while the manager lives, so a pointer is an index into the
list of all contexts ever allocated; `m_fdContexts` is a list of pointers.

The kernel's side is the interest list of the epoll instance: for a
descriptor, the mask and the context pointer of the last successful
`epoll_ctl`.  Whether an `epoll_ctl` succeeds is an input of the call that
makes it.  The entry of the tickle pipe, whose data is no context, is left
out.  Sizes are natural numbers: a table is far from filling an `int`.

A call ends in a `Fault` when one of its assertions fails, when it follows a
null scheduler, or when it takes `m_pendingEventCount` below zero.
-/

namespace Mingo

/-- `IOManager::Event`, `READ` and `WRITE`. -/
inductive Event
  | read
  | write
  deriving DecidableEq, Repr

/-- A mask of events: `READ` is the bit `EPOLLIN`, `WRITE` the bit
`EPOLLOUT`. -/
structure Events where
  read : Bool
  write : Bool
  deriving DecidableEq, Repr

namespace Events

/-- `NONE`. -/
def none : Events := ⟨false, false⟩

/-- `events & event`. -/
def has (es : Events) : Event → Bool
  | .read => es.read
  | .write => es.write

/-- `events | event`. -/
def insert (es : Events) : Event → Events
  | .read => { es with read := true }
  | .write => { es with write := true }

/-- `events & ~event`. -/
def erase (es : Events) : Event → Events
  | .read => { es with read := false }
  | .write => { es with write := false }

/-- The bits of both masks. -/
def inter (es fs : Events) : Events := ⟨es.read && fs.read, es.write && fs.write⟩

def union (es fs : Events) : Events := ⟨es.read || fs.read, es.write || fs.write⟩

/-- `es & ~fs`. -/
def diff (es fs : Events) : Events := ⟨es.read && !fs.read, es.write && !fs.write⟩

/-- The number of bits that are set. -/
def count (es : Events) : Nat := es.read.toNat + es.write.toNat

end Events

/-- `EventContext`: a scheduler, a fiber and a callback, each possibly null. -/
structure EventContext where
  scheduler : Option Nat
  fiber : Option Nat
  cb : Option Nat
  deriving DecidableEq, Repr

/-- The context nobody waits in. -/
def EventContext.empty : EventContext := ⟨none, none, none⟩

/-- What `addEvent` stores for a callback or, without one, for the running
fiber. -/
def EventContext.waiting (scheduler fiber : Nat) : Option Nat → EventContext
  | some cb => ⟨some scheduler, none, some cb⟩
  | none => ⟨some scheduler, some fiber, none⟩

/-- `FdContext`. -/
structure FdContext where
  read : EventContext
  write : EventContext
  fd : Nat
  events : Events
  deriving DecidableEq, Repr

/-- What a call can run into. -/
inductive Fault
  /-- the assertion `!(fd_ctx->events & event)` of `addEvent` -/
  | registered
  /-- the assertion of `addEvent` that the context is empty -/
  | contextInUse
  /-- the assertion `events & event` of `triggerEvent` -/
  | notRegistered
  /-- the assertion `fd_ctx->events == 0` of `cancelAll` -/
  | eventsLeft
  /-- a call through a null `scheduler` -/
  | nullScheduler
  /-- `--m_pendingEventCount` at zero -/
  | underflow
  /-- an index or pointer outside the table -/
  | outOfRange
  deriving DecidableEq, Repr

/-- The fault a call ends in, if any. -/
def Fault.of {α : Type} : Except Fault α → Option Fault
  | .error f => some f
  | .ok _ => none

namespace FdContext

/-- `new FdContext` for a descriptor. -/
def new (fd : Nat) : FdContext := ⟨.empty, .empty, fd, .none⟩

def getContext (c : FdContext) : Event → EventContext
  | .read => c.read
  | .write => c.write

/-- Store one of the two event contexts. -/
def setContext (c : FdContext) (ctx : EventContext) : Event → FdContext
  | .read => { c with read := ctx }
  | .write => { c with write := ctx }

/-- `resetContext` of the context of an event. -/
def resetContext (c : FdContext) (event : Event) : FdContext :=
  c.setContext .empty event

/-- `triggerEvent`: the task handed to the scheduler, if any, and the context
afterwards.  `schedule(&ctx.cb)` and `schedule(&ctx.fiber)` swap the task out
of the context. -/
def triggerEvent (c : FdContext) (event : Event) :
    Except Fault (Option (Nat × Task) × FdContext) :=
  if !c.events.has event then .error .notRegistered
  else
    let c := { c with events := c.events.erase event }
    let ctx := c.getContext event
    match ctx.scheduler with
    | none => .error .nullScheduler
    | some scheduler =>
        match ctx.cb with
        | some cb =>
            .ok (some (scheduler, .cb cb),
              c.setContext { ctx with cb := none, scheduler := none } event)
        | none =>
            .ok (ctx.fiber.map fun f => (scheduler, .fiber f),
              c.setContext { ctx with fiber := none, scheduler := none } event)

end FdContext

/-- The members of `IOManager`, the contexts on the heap, the interest list of
its epoll instance, and the tasks handed to schedulers so far. -/
structure IoManager where
  contexts : List FdContext
  fdContexts : List Nat
  pendingEventCount : Nat
  epoll : Nat → Option (Events × Nat)
  scheduled : List (Nat × Task)

namespace IoManager

/-- `contextResize`: a vector that is cut off or filled up with new contexts. -/
def contextResize (m : IoManager) (size : Nat) : IoManager :=
  let kept := m.fdContexts.take size
  let fresh := List.range' kept.length (size - kept.length)
  { m with
    contexts := m.contexts ++ fresh.map FdContext.new
    fdContexts := kept ++ List.range' m.contexts.length (size - kept.length) }

/-- A resize that does not cut the table off appends to it. -/
theorem contextResize_of_le {m : IoManager} {size : Nat} (h : m.fdContexts.length ≤ size) :
    m.contextResize size = { m with
      contexts := m.contexts ++
        (List.range' m.fdContexts.length (size - m.fdContexts.length)).map FdContext.new
      fdContexts := m.fdContexts ++
        List.range' m.contexts.length (size - m.fdContexts.length) } := by
  rw [contextResize, List.take_of_length_le h]

/-- The constructor. -/
def new : IoManager :=
  contextResize ⟨[], [], 0, fun _ => none, []⟩ 32

/-- The pointer and the context the table holds for a descriptor. -/
def lookup (m : IoManager) (fd : Nat) : Option (Nat × FdContext) :=
  match m.fdContexts[fd]? with
  | none => none
  | some p => m.contexts[p]?.map fun c => (p, c)

/-- Store a context. -/
def setContext (m : IoManager) (p : Nat) (c : FdContext) : IoManager :=
  { m with contexts := m.contexts.set p c }

/-- `EPOLL_CTL_ADD` and `EPOLL_CTL_MOD`, or `EPOLL_CTL_DEL` for the empty
mask. -/
def epollCtl (m : IoManager) (fd : Nat) (events : Events) (p : Nat) : IoManager :=
  { m with
    epoll := fun fd' =>
      if fd' = fd then (if events = .none then none else some (events, p)) else m.epoll fd' }

/-- `fd * 1.5` as a `size_t`. -/
def grownSize (fd : Nat) : Nat := fd * 3 / 2

/-- The part of `addEvent` under the lock of the context `p`; the flag says
whether the call succeeds. -/
def register (m : IoManager) (p fd : Nat) (event : Event) (cb : Option Nat)
    (scheduler fiber : Nat) (ctl : Bool) : Except Fault (Bool × IoManager) :=
  match m.contexts[p]? with
  | none => .error .outOfRange
  | some c =>
      if c.events.has event then .error .registered
      else if !ctl then .ok (false, m)
      else
        let m := m.epollCtl fd (c.events.insert event) p
        let m := { m with pendingEventCount := m.pendingEventCount + 1 }
        let c := { c with events := c.events.insert event }
        if c.getContext event ≠ .empty then .error .contextInUse
        else .ok (true, m.setContext p (c.setContext (.waiting scheduler fiber cb) event))

/-- `addEvent`, called on a thread of `scheduler` that runs `fiber`. -/
def addEvent (m : IoManager) (fd : Nat) (event : Event) (cb : Option Nat)
    (scheduler fiber : Nat) (ctl : Bool) : Except Fault (Bool × IoManager) :=
  let m := if m.fdContexts.length > fd then m else m.contextResize (grownSize fd)
  match m.fdContexts[fd]? with
  | none => .error .outOfRange
  | some p => m.register p fd event cb scheduler fiber ctl

/-- `--m_pendingEventCount`. -/
def decrement (m : IoManager) : Except Fault IoManager :=
  if m.pendingEventCount = 0 then .error .underflow
  else .ok { m with pendingEventCount := m.pendingEventCount - 1 }

/-- `triggerEvent` on the context `p`, and what it schedules. -/
def trigger (m : IoManager) (p : Nat) (event : Event) : Except Fault IoManager :=
  match m.contexts[p]? with
  | none => .error .outOfRange
  | some c => do
      let (task, c) ← c.triggerEvent event
      let m := { m with scheduled := m.scheduled ++ task.toList }
      (m.setContext p c).decrement

/-- Trigger the events of a mask, `READ` before `WRITE`. -/
def triggerAll (m : IoManager) (p : Nat) (events : Events) : Except Fault IoManager := do
  let m ← if events.read then m.trigger p .read else .ok m
  if events.write then m.trigger p .write else .ok m

/-- `delEvent`. -/
def delEvent (m : IoManager) (fd : Nat) (event : Event) (ctl : Bool) :
    Except Fault (Bool × IoManager) :=
  match m.lookup fd with
  | none => .ok (false, m)
  | some (p, c) =>
      if !c.events.has event then .ok (false, m)
      else if !ctl then .ok (false, m)
      else do
        let newEvents := c.events.erase event
        let m ← (m.epollCtl fd newEvents p).decrement
        let c := { c with events := newEvents }
        return (true, m.setContext p (c.resetContext event))

/-- `cancelEvent`. -/
def cancelEvent (m : IoManager) (fd : Nat) (event : Event) (ctl : Bool) :
    Except Fault (Bool × IoManager) :=
  match m.lookup fd with
  | none => .ok (false, m)
  | some (p, c) =>
      if !c.events.has event then .ok (false, m)
      else if !ctl then .ok (false, m)
      else do
        let m ← (m.epollCtl fd (c.events.erase event) p).trigger p event
        return (true, m)

/-- `cancelAll`. -/
def cancelAll (m : IoManager) (fd : Nat) (ctl : Bool) : Except Fault (Bool × IoManager) :=
  match m.lookup fd with
  | none => .ok (false, m)
  | some (p, c) =>
      if c.events = .none then .ok (false, m)
      else if !ctl then .ok (false, m)
      else do
        let m ← (m.epollCtl fd .none p).triggerAll p c.events
        if (m.contexts[p]?.map FdContext.events) = some .none then return (true, m)
        else .error .eventsLeft

/-- One entry of the array that `epoll_wait` fills: the context pointer, the
bits `EPOLLIN` and `EPOLLOUT`, and whether `EPOLLERR` or `EPOLLHUP` is set. -/
structure EpollEvent where
  ptr : Nat
  ready : Events
  errHup : Bool
  deriving DecidableEq, Repr

/-- `real_events` of the loop of `idle`. -/
def realEvents (c : FdContext) (event : EpollEvent) : Events :=
  if event.errHup then event.ready.union c.events else event.ready

/-- The body of the loop of `idle` over the returned entries: the events it
triggers. -/
def idleEvent (m : IoManager) (event : EpollEvent) (ctl : Bool) :
    Except Fault (Events × IoManager) :=
  match m.contexts[event.ptr]? with
  | none => .error .outOfRange
  | some c =>
      let real := realEvents c event
      if c.events.inter real = .none then .ok (.none, m)
      else if !ctl then .ok (.none, m)
      else do
        let m ← (m.epollCtl c.fd (c.events.diff real) event.ptr).triggerAll event.ptr real
        return (real, m)

end IoManager

end Mingo
