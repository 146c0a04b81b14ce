import Mingo.Scheduler.Conservation

/-!
# Tasks that are scheduled for one worker

`schedule(fc, thread)` stores the thread in the entry of the queue.  The entry
is gone when the task runs, and when the task yields with `YieldToReady` the
worker pushes a new one, for any thread.

What the program asked for outlives the entry, so it is kept beside the
workers: for each entry the thread it is meant for (`pin`), and for each worker
the thread meant for the task it executes (`turn`).  An entry that a worker
pushes continues the task that the worker executed; `switchTo` and every other
call of `schedule` begin anew.

* `act_pushed` -- the only entries that workers push are for any thread;
* `run_pinned` -- tasks stay on their thread as long as no worker puts back a
  task that is meant for one.
-/

namespace Mingo

/-- The workers, and what the program asked for. -/
structure Pinned where
  sched : Workers
  /-- by the number of an entry -/
  pin : Nat → Option Nat
  /-- by worker -/
  turn : Nat → Option Nat

namespace Pinned

open Workers

/-- `n` workers and nothing scheduled. -/
def new (n : Nat) : Pinned := ⟨Workers.new n, fun _ => none, fun _ => none⟩

/-- The thread that an entry is meant for: the one that the program names, or the one
meant for the task that the worker puts back. -/
def meant (s : Pinned) (op : Op) (e : Entry) : Option Nat :=
  match op with
  | .worker w _ => s.turn w
  | _ => e.thread

/-- What becomes of an entry in a step. -/
def record (op : Op) (s : Pinned) : TaskEvent → Pinned
  | .pushed e => { s with pin := Function.update s.pin e.id (s.meant op e) }
  | .executed w e => { s with turn := Function.update s.turn w (s.pin e.id) }
  | _ => s

/-- One step of the workers, recorded. -/
def step : Machine.Step Pinned Op (List TaskEvent) := fun s op =>
  (Workers.step s.sched op).map fun r =>
    (r.1, r.1.foldl (record op) { s with sched := r.2 })

/-- The worker that puts a task back. -/
def requeuer : Op → Option Nat
  | .worker w .requeue => some w
  | _ => none

/-- A worker does not put back a task that is meant for one thread. -/
def Free (s : Pinned) (op : Op) : Prop := ∀ w ∈ requeuer op, s.turn w = none

instance (s : Pinned) (op : Op) : Decidable (s.Free op) :=
  inferInstanceAs (Decidable (∀ w ∈ requeuer op, s.turn w = none))

end Pinned

namespace Workers

variable {s t : Workers} {w : Nat} {e : Entry} {es : List TaskEvent}

theorem dispatch_not_pushed {fresh : Nat} {taken : Option Entry}
    (h : s.dispatch w fresh taken = some (es, t)) : .pushed e ∉ es := by
  revert h
  fun_cases dispatch with
  | case5 =>
      intro h
      cases h
  | case7 =>
      intro h
      cases h
  | _ =>
      intro h
      cases h
      simp

/-- **What a worker pushes** is a fiber that was seen in state `READY`, for any thread. -/
theorem act_pushed {a : Act} {p : RunPhase} (h : s.act w a p = some (es, t))
    (he : .pushed e ∈ es) : a = .requeue ∧ e.thread = none := by
  revert h
  fun_cases act with
  | case2 =>
      intro h
      have hes : es = (s.dequeue w).1 := by rw [Option.some.inj h]
      rw [hes] at he
      unfold dequeue at he
      dsimp only at he
      split at he
      · cases he
      · simp at he
  | case5 =>
      intro h
      exact absurd he (dispatch_not_pushed h)
  | case8 how f isCb =>
      intro h
      obtain ⟨t', _, heq⟩ := Option.map_eq_some_iff.mp h
      cases heq
      cases he
  | case12 f isCb =>
      intro h
      have hes : es = (s.requeue w f isCb).1 := by rw [Option.some.inj h]
      rw [hes] at he
      simp only [requeue, scheduleNoLock, Option.toList_some, List.map_cons, List.map_nil,
        List.mem_singleton, TaskEvent.pushed.injEq] at he
      exact ⟨rfl, by rw [he]⟩
  | case6 =>
      intro h
      cases h
  | case16 =>
      intro h
      cases h
  | case21 =>
      intro h
      cases h
  | _ =>
      intro h
      cases h
      simp at he

end Workers

namespace Pinned

open Workers

variable {s t : Pinned} {op : Op}

/-- Recording pushes gives the entries their thread and leaves the rest alone. -/
theorem record_pushed :
    ∀ (es : List Entry) (s : Pinned), (es.map Entry.id).Nodup →
      (∀ e ∈ es, s.meant op e = e.thread) →
      ∃ pin, (es.map TaskEvent.pushed).foldl (record op) s = { s with pin := pin } ∧
        (∀ e ∈ es, pin e.id = e.thread) ∧ ∀ id, id ∉ es.map Entry.id → pin id = s.pin id := by
  intro es
  induction es with
  | nil =>
      intro s _ _
      exact ⟨s.pin, rfl, by simp, fun _ _ => rfl⟩
  | cons e es ih =>
      intro s hnodup hmeant
      obtain ⟨hnew, hrest⟩ := List.nodup_cons.mp hnodup
      have hmeant' : ∀ e' ∈ es, (record op s (.pushed e)).meant op e' = e'.thread := by
        intro e' he'
        exact hmeant e' (List.mem_cons_of_mem _ he')
      obtain ⟨pin, hfold, hes, hother⟩ := ih (record op s (.pushed e)) hrest hmeant'
      have hpin : (record op s (.pushed e)).pin = Function.update s.pin e.id e.thread := by
        rw [← hmeant e List.mem_cons_self]
        rfl
      refine ⟨pin, hfold, ?_, ?_⟩
      · intro e' he'
        rcases List.mem_cons.mp he' with rfl | htail
        · rw [hother _ hnew, hpin, Function.update_self]
        · exact hes e' htail
      · intro id hid
        rw [List.map_cons, List.mem_cons, not_or] at hid
        rw [hother id hid.2, hpin, Function.update_of_ne hid.1]

/-- The invariant: entries still carry the thread they are meant for, and what a worker has
taken or executes is meant for it, if for anyone. -/
structure Keeps (s : Pinned) : Prop where
  queued : ∀ e ∈ s.sched.fibers, e.id < s.sched.nextId ∧ s.pin e.id = e.thread
  held : ∀ w e, s.sched.held w = some e → e.id < s.sched.nextId ∧ s.pin e.id = e.thread ∧
    (e.thread = none ∨ e.thread = some w)
  turn : ∀ w, s.turn w = none ∨ s.turn w = some w

theorem new_keeps (n : Nat) : (new n).Keeps := by
  refine ⟨?_, ?_, fun _ => Or.inl rfl⟩
  · intro e he
    cases he
  · intro w e he
    cases he

variable {m : Workers}

/-- Entries are pushed for the threads they are meant for. -/
theorem Keeps.push {es : List Entry} (h : s.Keeps)
    (hmeant : ∀ e ∈ es, s.meant op e = e.thread) (hfibers : m.fibers = s.sched.fibers ++ es)
    (hnext : m.nextId = s.sched.nextId + es.length)
    (hids : es.map Entry.id = List.range' s.sched.nextId es.length)
    (hheld : m.held = s.sched.held) :
    ((es.map TaskEvent.pushed).foldl (record op) { s with sched := m }).Keeps := by
  have hnodup : (es.map Entry.id).Nodup := hids ▸ List.nodup_range'
  obtain ⟨pin, hfold, hpin, hother⟩ := record_pushed es { s with sched := m } hnodup hmeant
  rw [hfold]
  have hold : ∀ id, id < s.sched.nextId → pin id = s.pin id := by
    intro id hid
    refine hother id ?_
    rw [hids, List.mem_range'_1]
    omega
  refine ⟨?_, ?_, h.turn⟩
  · intro e he
    rw [hfibers] at he
    rw [hnext]
    rcases List.mem_append.mp he with hq | hnew
    · obtain ⟨hlt, hthread⟩ := h.queued e hq
      exact ⟨by omega, (hold e.id hlt).trans hthread⟩
    · have hrange : e.id ∈ List.range' s.sched.nextId es.length :=
        hids ▸ List.mem_map_of_mem hnew
      rw [List.mem_range'_1] at hrange
      exact ⟨by omega, hpin e hnew⟩
  · intro w e he
    rw [hheld] at he
    rw [hnext]
    obtain ⟨hlt, hthread, hw⟩ := h.held w e he
    exact ⟨by omega, (hold e.id hlt).trans hthread, hw⟩

/-- A worker takes an entry that it may run. -/
theorem Keeps.remove {w : Nat} {e : Entry} {pre post : List Entry} (h : s.Keeps)
    (hfibers : s.sched.fibers = pre ++ e :: post) (hfibers' : m.fibers = pre ++ post)
    (hnext : m.nextId = s.sched.nextId) (he : s.sched.Allowed w e)
    (hheld : m.held = Function.update s.sched.held w (some e)) :
    ({ s with sched := m } : Pinned).Keeps := by
  refine ⟨?_, ?_, h.turn⟩
  · intro e' he'
    rw [hfibers'] at he'
    rw [hnext]
    refine h.queued e' ?_
    rw [hfibers]
    simp only [List.mem_append, List.mem_cons] at he' ⊢
    tauto
  · intro v e' he'
    rw [hheld] at he'
    rw [hnext]
    by_cases hv : v = w
    · rw [hv, Function.update_self] at he'
      cases he'
      obtain ⟨hlt, hthread⟩ := h.queued e (by rw [hfibers]; simp)
      rw [hv]
      exact ⟨hlt, hthread, thread_of_allowed he⟩
    · rw [Function.update_of_ne hv] at he'
      exact h.held v e' he'

/-- A worker deals with the entry it has taken. -/
theorem Keeps.deal {w : Nat} {turn : Nat → Option Nat} (h : s.Keeps)
    (hfibers : m.fibers = s.sched.fibers) (hnext : m.nextId = s.sched.nextId)
    (hheld : m.held = Function.update s.sched.held w none)
    (hturn : ∀ v, turn v = none ∨ turn v = some v) :
    ({ s with sched := m, turn := turn } : Pinned).Keeps := by
  refine ⟨?_, ?_, hturn⟩
  · intro e he
    exact hnext ▸ h.queued e (hfibers ▸ he)
  · intro v e he
    rw [hheld] at he
    by_cases hv : v = w
    · rw [hv, Function.update_self] at he
      cases he
    · rw [Function.update_of_ne hv] at he
      exact hnext ▸ h.held v e he

/-- What a worker begins to execute is meant for it. -/
theorem Keeps.turn_update {w : Nat} {e : Entry} (h : s.Keeps) (hw : s.sched.held w = some e)
    (v : Nat) : Function.update s.turn w (s.pin e.id) v = none ∨
      Function.update s.turn w (s.pin e.id) v = some v := by
  by_cases hv : v = w
  · obtain ⟨_, hthread, hbound⟩ := h.held w e hw
    rw [hv, Function.update_self, hthread]
    exact hbound
  · rw [Function.update_of_ne hv]
    exact h.turn v

/-- **Step lemma.** -/
theorem step_keeps (s : Pinned) (op : Op) (es : List TaskEvent) (t : Pinned) (h : s.Keeps)
    (hfree : s.Free op) (hstep : step s op = some (es, t)) : t.Keeps := by
  obtain ⟨⟨es', m⟩, hworkers, heq⟩ := Option.map_eq_some_iff.mp hstep
  cases heq
  have hmeant : ∀ e, .pushed e ∈ es' → s.meant op e = e.thread := by
    intro e he
    unfold meant
    split
    · next w a =>
        obtain ⟨_, hact⟩ := Option.ite_none_right_eq_some.mp hworkers
        obtain ⟨ha, hthread⟩ := act_pushed hact he
        rw [ha] at hfree
        rw [hthread]
        exact hfree w rfl
    · rfl
  cases step_tasks hworkers with
  | push es hfibers hnext hids hheld =>
      exact h.push (fun e he => hmeant e (List.mem_map_of_mem he)) hfibers hnext hids hheld
  | remove w e pre post hfibers hfibers' hnext hpre he hw hheld =>
      exact h.remove hfibers hfibers' hnext he hheld
  | execute w e hfibers hnext hw hheld =>
      exact h.deal hfibers hnext hheld (h.turn_update hw)
  | drop w f e st hfibers hnext htask hst hfinished hw hheld =>
      exact h.deal hfibers hnext hheld h.turn

/-- **Pinning.**  In every run in which no worker puts back a task that is meant for one
thread, whatever a worker has taken or executes is meant for that worker, if for anyone. -/
theorem run_pinned {n : Nat} {ops : List Op} {outs : List (List TaskEvent)} {s : Pinned}
    (hfree : Machine.Meets step Free (new n) ops)
    (hrun : Machine.run step (new n) ops = some (outs, s)) :
    (∀ w t, s.turn w = some t → w = t) ∧
      ∀ w e t, s.sched.held w = some e → s.pin e.id = some t → w = t := by
  have hstep : ∀ s op es t, Keeps s → s.Free op → step s op = some (es, t) → t.Keeps ∧ True :=
    fun s op es t h hf hs => ⟨step_keeps s op es t h hf hs, trivial⟩
  have h := (Machine.run_invariant_of_meets hstep (new_keeps n) hfree hrun).1
  constructor
  · intro w t ht
    rcases h.turn w with hnone | hsome
    · rw [hnone] at ht
      cases ht
    · rw [hsome] at ht
      exact Option.some.inj ht
  · intro w e t he ht
    obtain ⟨_, hthread, hbound⟩ := h.held w e he
    rw [← hthread, ht] at hbound
    rcases hbound with hnone | hsome
    · cases hnone
    · exact (Option.some.inj hsome).symm

/-- A callback for the second of two workers.  The first finds nothing to do; the second
executes the callback, which blocks, as do the fibers of `switchTo`. -/
theorem run_pinned_hold :
    let ops : List Op := [.worker 0 .start, .worker 1 .start,
      .schedule (some ⟨.cb 9, some 1⟩), .worker 0 .dequeue, .worker 1 .dequeue,
      .worker 1 (.dispatch 4), .worker 1 .swapIn, .worker 1 (.yield .toHold), .worker 1 .save,
      .worker 1 .decrement, .worker 1 .settle, .schedule (some ⟨.fiber 4, some 1⟩),
      .worker 1 .dequeue, .worker 1 (.dispatch 5), .worker 1 .swapIn]
    ∃ outs s, Machine.run step (new 2) ops = some (outs, s) ∧
      (s.sched.workers 1).phase = .running 4 false ∧ s.turn 1 = some 1 ∧
      ∀ w t, s.turn w = some t → w = t := by
  intro ops
  have hfree : Machine.Meets step Free (new 2) ops := by decide
  have hany : (Machine.run step (new 2) ops).any (fun r =>
      decide ((r.2.sched.workers 1).phase = .running 4 false ∧ r.2.turn 1 = some 1)) = true := by
    decide
  obtain ⟨⟨outs, s⟩, hrun, hend⟩ := (Option.any_eq_true _ _).mp hany
  obtain ⟨hphase, hturn⟩ := of_decide_eq_true hend
  exact ⟨outs, s, hrun, hphase, hturn, (run_pinned hfree hrun).1⟩

/-- The same callback gives up the processor with `YieldToReady`.  The second worker puts it
back for any thread, and the first one resumes it. -/
theorem yieldToReady_unpins :
    let ops : List Op := [.worker 0 .start, .worker 1 .start,
      .schedule (some ⟨.cb 9, some 1⟩), .worker 1 .dequeue, .worker 1 (.dispatch 4),
      .worker 1 .swapIn, .worker 1 (.yield .toReady), .worker 1 .save, .worker 1 .decrement,
      .worker 1 .settle, .worker 1 .requeue, .worker 0 .dequeue, .worker 0 (.dispatch 5),
      .worker 0 .swapIn]
    (Machine.run step (new 2) ops).map
      (fun r => ((r.2.sched.workers 0).phase, r.2.turn 0)) = some (.running 4 false, some 1) := by
  decide

end Pinned

end Mingo
