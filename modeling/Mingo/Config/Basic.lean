import Mathlib.Data.List.Basic
import Mathlib.Logic.Function.Basic
import Mingo.Lib.Machine

/-!
# Configuration variables and their listeners

`ConfigVar` of config.h.  `setValue` has two critical sections.  In the first,
under the read lock, it compares the new value with the stored one and calls
the listeners; in the second, under the write lock, it stores the new value.

`ConfigVar.setValue` is a call with nobody else around.  `Setters` are any
number of threads that call it concurrently.  The read lock is shared, so the
calls of listeners by different threads are steps of their own; a section
under the write lock is one step that needs the lock to itself.

The type of the values is arbitrary and its `operator==` any function.
-/

namespace Mingo

/-- A variable: its value, and the keys of its listeners in the order of the map. -/
structure ConfigVar (T : Type) where
  value : T
  cbs : List Nat
  deriving DecidableEq, Repr

variable {T σ : Type}

/-- `setValue` by a single thread.  Listeners change a state of type `σ`, or crash. -/
def ConfigVar.setValue [BEq T] (listener : Nat → T → T → σ → Option σ) (v : ConfigVar T)
    (value : T) (s : σ) : Option (ConfigVar T × σ) :=
  if v.value == value then some (v, s)
  else
    (v.cbs.foldlM (fun s key => listener key v.value value s) s).map fun s =>
      ({ v with value := value }, s)

/-- How far a call of `setValue` is. -/
inductive SetCall (T : Type)
  /-- the thread is not in a call -/
  | idle
  /-- under the read lock, before it calls these listeners -/
  | notifying (value : T) (rest : List Nat)
  /-- the read lock is released, the write lock not yet taken -/
  | storing (value : T)
  deriving DecidableEq, Repr

/-- The value that the call is about to store. -/
def SetCall.value : SetCall T → Option T
  | .idle => none
  | .notifying v _ => some v
  | .storing v => some v

/-- A variable, the threads that set it, the number of those that hold the read lock, the
static `func_id`, and what each listener was last passed as `new_val`. -/
structure Setters (T : Type) where
  var : ConfigVar T
  calls : List (SetCall T)
  readers : Nat
  funcId : Nat
  last : Nat → Option T

namespace Setters

/-- `n` threads, none of which has called `setValue` yet. -/
def start (var : ConfigVar T) (n funcId : Nat) : Setters T :=
  ⟨var, List.replicate n .idle, 0, funcId, fun _ => none⟩

/-- The steps. -/
inductive Op (T : Type)
  /-- the read lock and the comparison -/
  | compare (c : Nat) (value : T)
  | notify (c : Nat)
  /-- the end of the first section -/
  | unlock (c : Nat)
  | store (c : Nat)
  | addListener
  /-- `addListener` of another variable of the type, which has the same `func_id` -/
  | addElsewhere
  | delListener (key : Nat)
  | clearListeners
  deriving DecidableEq, Repr

/-- Every call has returned. -/
def Quiet (s : Setters T) : Prop := ∀ call ∈ s.calls, call = .idle

instance [DecidableEq T] (s : Setters T) : Decidable s.Quiet :=
  inferInstanceAs (Decidable (∀ call ∈ s.calls, call = .idle))

/-- The step takes a listener out of the map. -/
def Op.removes (key : Nat) : Op T → Bool
  | .delListener key' => key' = key
  | .clearListeners => true
  | _ => false

variable [BEq T]

/-- The first section up to the first listener. -/
def compare (s : Setters T) (c : Nat) (value : T) : Setters T :=
  if s.var.value == value then s
  else
    { s with
      readers := s.readers + 1
      calls := s.calls.set c (.notifying value s.var.cbs) }

/-- One step, and the value that it stores, if any. -/
def step : Machine.Step (Setters T) (Op T) (Option T)
  | s, .compare c value =>
      match s.calls[c]? with
      | some .idle => some (none, s.compare c value)
      | _ => none
  | s, .notify c =>
      match s.calls[c]? with
      | some (.notifying value (key :: rest)) =>
          some (none, { s with
            calls := s.calls.set c (.notifying value rest)
            last := Function.update s.last key (some value) })
      | _ => none
  | s, .unlock c =>
      match s.calls[c]? with
      | some (.notifying value []) =>
          some (none, { s with readers := s.readers - 1, calls := s.calls.set c (.storing value) })
      | _ => none
  | s, .store c =>
      match s.calls[c]? with
      | some (.storing value) =>
          if s.readers = 0 then
            some (some value, { s with
              var := { s.var with value := value }
              calls := s.calls.set c .idle })
          else none
      | _ => none
  | s, .addListener =>
      if s.readers = 0 then
        some (none, { s with
          var := { s.var with cbs := s.var.cbs ++ [s.funcId + 1] }
          funcId := s.funcId + 1 })
      else none
  | s, .addElsewhere => some (none, { s with funcId := s.funcId + 1 })
  | s, .delListener key =>
      if s.readers = 0 then
        some (none, { s with var := { s.var with cbs := s.var.cbs.filter (· ≠ key) } })
      else none
  | s, .clearListeners =>
      if s.readers = 0 then some (none, { s with var := { s.var with cbs := [] } })
      else none

/-- A call that is about to notify finds no other call in progress that sets another
value. -/
def Alone (s : Setters T) : Op T → Prop
  | .compare _ value => (s.var.value == value) = false →
      ∀ call ∈ s.calls, ∀ v ∈ call.value, v = value
  | _ => True

instance [DecidableEq T] (s : Setters T) : (op : Op T) → Decidable (s.Alone op)
  | .compare _ value => inferInstanceAs (Decidable ((s.var.value == value) = false →
      ∀ call ∈ s.calls, ∀ v ∈ call.value, v = value))
  | .notify _ => isTrue trivial
  | .unlock _ => isTrue trivial
  | .store _ => isTrue trivial
  | .addListener => isTrue trivial
  | .addElsewhere => isTrue trivial
  | .delListener _ => isTrue trivial
  | .clearListeners => isTrue trivial

end Setters

end Mingo
