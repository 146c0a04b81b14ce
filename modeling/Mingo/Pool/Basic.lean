import Mathlib.Data.List.Basic
import Mathlib.Logic.Function.Basic
import Mingo.Lib.Machine

/-!
# The connection pool of http_connection.cpp

`HttpConnectionPool::getConnection` and the deleter `ReleasePtr` of the shared
pointers it returns, called by any number of fibers.  Connections are objects
on a heap; the pool keeps raw pointers to them in `m_conns`, and a pointer
leaves that list for the call that popped it and then for one holder.

A step is what one fiber does without being interrupted: the reading of the
clock, the loop under the lock, each `delete`, each update of the atomic
`m_total`, the construction of a connection.  `Socket::isConnected`, the
outcome of the lookup, the creation and the connect, and the address returned
by `new` are inputs of the steps that use them.  A step is undefined when it
dereferences a pointer to nothing.
-/

namespace Mingo

/-- The members of `HttpConnection` that the pool looks at. -/
structure HttpConnection where
  createTime : UInt64 := 0
  request : UInt64 := 0
  deriving DecidableEq, Repr

/-- Where a call that has not returned yet stands. -/
inductive Call
  /-- `getConnection` has read `now_ms` and waits for the lock -/
  | entered (now : UInt64)
  /-- the lock is released: `ptr`, the rest of `invalid_conns`, and how many of
  them are deleted -/
  | popped (ptr : Option Nat) (invalid : List Nat) (deleted : Nat)
  /-- no pooled connection was found -/
  | connecting
  /-- the new connection is not counted yet -/
  | created (a : Nat)
  /-- `ReleasePtr` has deleted the connection, which is still counted -/
  | deleted
  /-- `ReleasePtr` waits for the lock -/
  | pooling (a : Nat)
  deriving DecidableEq, Repr

/-- The members of `HttpConnectionPool` that the two functions use, the heap of
the connections, the pointers handed out, and the calls under way.  The clock
and the time at which each connection was constructed are not in the source:
they say what `GetCurrentMS` returns and what a creation time should be. -/
structure HttpConnectionPool where
  maxAliveTime : UInt32
  maxRequest : UInt32
  conns : List Nat
  total : BitVec 32
  heap : Nat → Option HttpConnection
  held : List Nat
  calls : List Call
  clock : UInt64
  born : Nat → UInt64

/-- What a step does with a pooled or a returned connection: the age is in
milliseconds, at the time the function has read. -/
inductive PoolEvent
  | handedOut (age : Nat)
  | pooled (age : Nat)
  | discarded (age : Nat) (connected : Bool) (request : UInt64)
  deriving DecidableEq, Repr

namespace HttpConnectionPool

/-- The constructor, at clock reading `now`. -/
def new (maxAliveTime maxRequest : UInt32) (now : UInt64) : HttpConnectionPool where
  maxAliveTime := maxAliveTime
  maxRequest := maxRequest
  conns := []
  total := 0
  heap := fun _ => none
  held := []
  calls := []
  clock := now
  born := fun _ => now

def store (p : HttpConnectionPool) (a : Nat) (c : Option HttpConnection) : HttpConnectionPool :=
  { p with heap := Function.update p.heap a c }

/-- The age of the connection at an address. -/
def age (p : HttpConnectionPool) (a : Nat) (now : UInt64) : Nat :=
  now.toNat - (p.born a).toNat

/-- The loop of `getConnection` under the lock: `ptr`, `invalid_conns` and what
stays in `m_conns`. -/
def popLoop (p : HttpConnectionPool) (now : UInt64) (connected : Nat → Bool) :
    List Nat → Option (Option Nat × List Nat × List Nat)
  | [] => some (none, [], [])
  | a :: rest =>
      match p.heap a with
      | none => none
      | some conn =>
          if !connected a || decide (conn.createTime + p.maxAliveTime.toUInt64 > now) then
            (p.popLoop now connected rest).map fun r => (r.1, a :: r.2.1, r.2.2)
          else some (some a, [], rest)

/-- What the loop has decided about the connections it took. -/
def popEvents (p : HttpConnectionPool) (now : UInt64) (connected : Nat → Bool)
    (ptr : Option Nat) (invalid : List Nat) : List PoolEvent :=
  (ptr.toList.map fun a => .handedOut (p.age a now)) ++
    invalid.map fun a =>
      .discarded (p.age a now) (connected a) ((p.heap a).map HttpConnection.request |>.getD 0)

/-- The next step of a call under way; the pool is the one without that call. -/
def resume (p : HttpConnectionPool) (connected : Nat → Bool) (made : Option Nat) :
    Call → Option (List PoolEvent × HttpConnectionPool)
  | .entered now =>
      match p.popLoop now connected p.conns with
      | none => none
      | some (ptr, invalid, rest) =>
          some (p.popEvents now connected ptr invalid,
            { p with conns := rest, calls := .popped ptr invalid 0 :: p.calls })
  | .popped ptr (a :: rest) deleted =>
      match p.heap a with
      | none => none
      | some _ =>
          some ([], { p.store a none with calls := .popped ptr rest (deleted + 1) :: p.calls })
  | .popped ptr [] deleted =>
      let p := { p with total := p.total - BitVec.ofNat 32 deleted }
      match ptr with
      | some a => some ([], { p with held := a :: p.held })
      | none => some ([], { p with calls := .connecting :: p.calls })
  | .connecting =>
      match made with
      | none => some ([], p)
      | some a =>
          if p.heap a = none then
            some ([], { p.store a (some {}) with
              calls := .created a :: p.calls
              born := Function.update p.born a p.clock })
          else none
  | .created a => some ([], { p with total := p.total + 1, held := a :: p.held })
  | .deleted => some ([], { p with total := p.total - 1 })
  | .pooling a => some ([], { p with conns := p.conns ++ [a] })

/-- `ReleasePtr`, up to the update of `m_total` or the lock. -/
def releasePtr (p : HttpConnectionPool) (a : Nat) (connected : Bool) :
    Option (List PoolEvent × HttpConnectionPool) :=
  match p.heap a with
  | none => none
  | some conn =>
      let conn := { conn with request := conn.request + 1 }
      if !connected || decide (conn.createTime + p.maxAliveTime.toUInt64 ≥ p.clock) ||
          decide (conn.request ≥ p.maxRequest.toUInt64) then
        some ([.discarded (p.age a p.clock) connected conn.request],
          { p.store a none with calls := .deleted :: p.calls })
      else
        some ([.pooled (p.age a p.clock)],
          { p.store a (some conn) with calls := .pooling a :: p.calls })

/-- The steps: time passes, a fiber calls `getConnection`, the holder of a
connection drops it, a call under way goes on. -/
inductive Op
  | tick (now : UInt64)
  | getConnection
  | release (a : Nat) (connected : Bool)
  | resume (c : Call) (connected : Nat → Bool) (made : Option Nat)

/-- One step. -/
def step : Machine.Step HttpConnectionPool Op (List PoolEvent)
  | p, .tick now => if p.clock ≤ now then some ([], { p with clock := now }) else none
  | p, .getConnection => some ([], { p with calls := .entered p.clock :: p.calls })
  | p, .release a connected =>
      if a ∈ p.held then { p with held := p.held.erase a }.releasePtr a connected else none
  | p, .resume c connected made =>
      if c ∈ p.calls then { p with calls := p.calls.erase c }.resume connected made c else none

end HttpConnectionPool

end Mingo
