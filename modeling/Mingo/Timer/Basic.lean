import Mingo.Lib.Machine
import Mingo.Lib.OrderedSet

/-!
# The timers of timer.cpp

A `Timer` is an object on the heap that its `TimerManager` keeps in the
`std::set` `m_timers` while it is armed.  The set holds shared pointers and is
ordered by a comparator that looks through them, at the current `m_next` of
the two objects.

A call is a transition of the manager; it is undefined when it erases at
`end()`.  The clock reading of a call and the addresses handed out by `new`
are inputs of the call, and `release` is the moment an object that nobody
points to any more is freed, so that its address can be handed out again.
-/

namespace Mingo

/-- The members of `Timer`; `none` is the empty callback. -/
structure Timer (Cb : Type) where
  recurring : Bool
  ms : UInt64
  next : UInt64
  cb : Option Cb
  deriving DecidableEq, Repr

/-- The members of `TimerManager`, and the heap its timers live on: the object
at an address, if there is one. -/
structure TimerManager (Cb : Type) where
  heap : Nat → Option (Timer Cb)
  timers : List Nat
  tickled : Bool
  previouseTime : UInt64

namespace TimerManager

variable {Cb : Type}

/-- The constructor, at clock reading `now`. -/
def new (now : UInt64) : TimerManager Cb where
  heap := fun _ => none
  timers := []
  tickled := false
  previouseTime := now

/-- The field `m_next` of the object at an address. -/
def next (m : TimerManager Cb) (a : Nat) : UInt64 :=
  match m.heap a with
  | some t => t.next
  | none => 0

/-- `Timer::Comparator` on two pointers, of which either may be null. -/
def comparator (m : TimerManager Cb) : Option Nat → Option Nat → Bool
  | none, none => false
  | none, some _ => true
  | some _, none => false
  | some lhs, some rhs =>
      if m.next lhs < m.next rhs then true
      else if m.next rhs < m.next lhs then false
      else lhs < rhs

/-- The comparator on two objects. -/
def before (m : TimerManager Cb) (a b : Nat) : Bool := m.comparator (some a) (some b)

/-- Store an object. -/
def store (m : TimerManager Cb) (a : Nat) (t : Timer Cb) : TimerManager Cb :=
  { m with heap := fun b => if b = a then some t else m.heap b }

/-- The private `addTimer`; the flag says whether `onTimerInsertedAtFront` is
called. -/
def insertTimer (m : TimerManager Cb) (a : Nat) : Bool × TimerManager Cb :=
  let r := OrderedSet.insert m.before m.timers a
  let atFront := r.2 = 0 && !m.tickled
  (atFront, { m with timers := r.1, tickled := if atFront then true else m.tickled })

/-- The public `addTimer`. -/
def addTimer (m : TimerManager Cb) (now ms : UInt64) (cb : Cb) (recurring : Bool) (a : Nat) :
    Bool × TimerManager Cb :=
  (m.store a { recurring, ms, next := now + ms, cb := some cb }).insertTimer a

/-- `Timer::cancel` of the timer `t` at address `a`. -/
def cancel (m : TimerManager Cb) (a : Nat) (t : Timer Cb) : Option (Bool × TimerManager Cb) :=
  match t.cb with
  | none => some (false, m)
  | some _ =>
      let m := m.store a { t with cb := none }
      let it := OrderedSet.find m.before m.timers a
      (OrderedSet.erase m.timers it).map fun timers => (true, { m with timers })

/-- `Timer::refresh`. -/
def refresh (m : TimerManager Cb) (a : Nat) (t : Timer Cb) (now : UInt64) :
    Option (Bool × TimerManager Cb) :=
  match t.cb with
  | none => some (false, m)
  | some _ =>
      match OrderedSet.find m.before m.timers a with
      | none => some (false, m)
      | it =>
          (OrderedSet.erase m.timers it).map fun timers =>
            let m := { m with timers }.store a { t with next := now + t.ms }
            (true, { m with timers := (OrderedSet.insert m.before m.timers a).1 })

/-- `Timer::reset`; the second flag is that of `addTimer`. -/
def reset (m : TimerManager Cb) (a : Nat) (t : Timer Cb) (ms : UInt64) (fromNow : Bool)
    (now : UInt64) : Option (Bool × Bool × TimerManager Cb) :=
  if ms = t.ms && !fromNow then some (true, false, m)
  else
    match t.cb with
    | none => some (false, false, m)
    | some _ =>
        match OrderedSet.find m.before m.timers a with
        | none => some (false, false, m)
        | it =>
            (OrderedSet.erase m.timers it).map fun timers =>
              let start := if fromNow then now else t.next - t.ms
              let m := { m with timers }.store a { t with ms, next := start + ms }
              (true, m.insertTimer a)

/-- `getNextTimer`. -/
def getNextTimer (m : TimerManager Cb) (now : UInt64) : UInt64 × TimerManager Cb :=
  let m := { m with tickled := false }
  match m.timers with
  | [] => (-1, m)
  | a :: _ => (if now ≥ m.next a then 0 else m.next a - now, m)

/-- `detectClockRollover`: the clock has gone back by more than an hour. -/
def detectClockRollover (m : TimerManager Cb) (now : UInt64) : Bool × TimerManager Cb :=
  (now < m.previouseTime && now < m.previouseTime - 60 * 60 * 1000,
    { m with previouseTime := now })

/-- The number of timers that `listExpiredCb` takes out: those before the
iterator `it`, for the probe object `nowTimer`. -/
def expiredCount (m : TimerManager Cb) (now : UInt64) (rollover : Bool) (nowTimer : Nat) : Nat :=
  if rollover then m.timers.length
  else
    let m := m.store nowTimer { recurring := false, ms := 0, next := now, cb := none }
    let before := OrderedSet.below m.before m.timers nowTimer
    let it := OrderedSet.lowerBound m.before m.timers nowTimer
    before.length + (it.takeWhile fun a => m.next a == now).length

/-- The loop over the expired timers: their callbacks, and the recurring ones
armed again. -/
def fire (now : UInt64) : List Nat → TimerManager Cb → List (Option Cb) × TimerManager Cb
  | [], m => ([], m)
  | a :: expired, m =>
      match m.heap a with
      | none => fire now expired m
      | some t =>
          let m :=
            if t.recurring then
              let m := m.store a { t with next := now + t.ms }
              { m with timers := (OrderedSet.insert m.before m.timers a).1 }
            else m.store a { t with cb := none }
          let r := fire now expired m
          (t.cb :: r.1, r.2)

/-- `listExpiredCb`. -/
def listExpiredCb (m : TimerManager Cb) (now : UInt64) (nowTimer : Nat) :
    List (Option Cb) × TimerManager Cb :=
  match m.timers with
  | [] => ([], m)
  | first :: _ =>
      let (rollover, m) := m.detectClockRollover now
      if !rollover && m.next first > now then ([], m)
      else
        let count := m.expiredCount now rollover nowTimer
        fire now (m.timers.take count) { m with timers := m.timers.drop count }

/-- The calls of a run, with what the environment supplies to each. -/
inductive Op (Cb : Type)
  | addTimer (now ms : UInt64) (cb : Cb) (recurring : Bool) (a : Nat)
  | cancel (a : Nat)
  | refresh (a : Nat) (now : UInt64)
  | reset (a : Nat) (ms : UInt64) (fromNow : Bool) (now : UInt64)
  | getNextTimer (now : UInt64)
  | listExpiredCb (now : UInt64) (nowTimer : Nat)
  | release (a : Nat)

/-- What a call hands back; `atFront` marks a call of
`onTimerInsertedAtFront`. -/
inductive Out (Cb : Type)
  | timer (a : Nat) (atFront : Bool)
  | result (ok : Bool) (atFront : Bool)
  | delay (ms : UInt64)
  | callbacks (cbs : List (Option Cb))
  | released

/-- What the environment owes a call: `new` hands out an address that is not
in use, a member function is called on an object that exists, and an object is
freed only when the set no longer points to it. -/
def Valid (m : TimerManager Cb) : Op Cb → Prop
  | .addTimer _ _ _ _ a => m.heap a = none
  | .cancel a => (m.heap a).isSome
  | .refresh a _ => (m.heap a).isSome
  | .reset a _ _ _ => (m.heap a).isSome
  | .getNextTimer _ => True
  | .listExpiredCb _ nowTimer => m.heap nowTimer = none
  | .release a => (m.heap a).isSome ∧ a ∉ m.timers

instance (m : TimerManager Cb) : (op : Op Cb) → Decidable (m.Valid op)
  | .addTimer _ _ _ _ a => inferInstanceAs (Decidable (m.heap a = none))
  | .cancel a => inferInstanceAs (Decidable ((m.heap a).isSome))
  | .refresh a _ => inferInstanceAs (Decidable ((m.heap a).isSome))
  | .reset a _ _ _ => inferInstanceAs (Decidable ((m.heap a).isSome))
  | .getNextTimer _ => inferInstanceAs (Decidable True)
  | .listExpiredCb _ nowTimer => inferInstanceAs (Decidable (m.heap nowTimer = none))
  | .release a => inferInstanceAs (Decidable ((m.heap a).isSome ∧ a ∉ m.timers))

/-- One call; undefined on an object that does not exist and when it erases at
`end()`. -/
def step : Machine.Step (TimerManager Cb) (Op Cb) (Out Cb)
  | m, .addTimer now ms cb recurring a =>
      let (atFront, m) := m.addTimer now ms cb recurring a
      some (.timer a atFront, m)
  | m, .cancel a =>
      match m.heap a with
      | none => none
      | some t => (m.cancel a t).map fun (ok, m) => (.result ok false, m)
  | m, .refresh a now =>
      match m.heap a with
      | none => none
      | some t => (m.refresh a t now).map fun (ok, m) => (.result ok false, m)
  | m, .reset a ms fromNow now =>
      match m.heap a with
      | none => none
      | some t =>
          (m.reset a t ms fromNow now).map fun (ok, atFront, m) => (.result ok atFront, m)
  | m, .getNextTimer now =>
      let (ms, m) := m.getNextTimer now
      some (.delay ms, m)
  | m, .listExpiredCb now nowTimer =>
      let (cbs, m) := m.listExpiredCb now nowTimer
      some (.callbacks cbs, m)
  | m, .release a =>
      some (.released, { m with heap := fun b => if b = a then none else m.heap b })

end TimerManager

end Mingo
