import Mingo.Scheduler.Counters

/-!
# What `stopping` promises

`Scheduler::stopping` looks at `m_fibers` and `m_activeThreadCount` under the
lock, but a worker decrements the counter before it puts a fiber that has
yielded to `READY` back into the queue.  In between, the fiber is nowhere to be
seen.

* `Quiet` -- nothing is pending anywhere;
* `stopping_quiet_iff` -- when `stopping` says so, this is true exactly if no
  worker stands in that window.
-/

namespace Mingo

namespace Workers

/-- The worker holds a fiber in state `READY` that it has still to put back. -/
def HoldsReady (s : Workers) (w : Nat) : Prop :=
  match (s.workers w).phase with
  | .running f _ => s.state f = some .ready
  | .saving f _ => s.state f = some .ready
  | .returned f _ => s.state f = some .ready
  | .decremented f _ => s.state f = some .ready
  | .requeue _ _ => True
  | _ => False

/-- No task is pending anywhere. -/
def Quiet (s : Workers) : Prop :=
  s.fibers = [] ∧ (∀ w < s.threads, (s.workers w).phase.active = false) ∧
    ∀ w < s.threads, ¬ s.HoldsReady w

/-- The worker is between the decrement of `m_activeThreadCount` and the push of
a fiber that came back in state `READY`. -/
def InWindow (s : Workers) (w : Nat) : Prop :=
  ∃ f isCb, ((s.workers w).phase = .decremented f isCb ∧ s.state f = some .ready) ∨
    (s.workers w).phase = .requeue f isCb

variable {s : Workers} {w : Nat}

/-- Outside its counted phases a worker holds a `READY` fiber only there. -/
theorem holdsReady_iff_inWindow (h : (s.workers w).phase.active = false) :
    s.HoldsReady w ↔ s.InWindow w := by
  unfold HoldsReady InWindow
  cases hp : (s.workers w).phase with
  | running f isCb => simp [hp, RunPhase.active] at h
  | saving f isCb => simp [hp, RunPhase.active] at h
  | returned f isCb => simp [hp, RunPhase.active] at h
  | decremented f isCb => simp
  | requeue f isCb => simp
  | _ => simp

/-- **Stop is safe outside the window.**  In every state of every run in which
`stopping` returns true, nothing is pending anywhere exactly if no worker is
between its decrement of `m_activeThreadCount` and the push of a `READY`
fiber. -/
theorem stopping_quiet_iff (n : Nat) (ops : List Op) (os : List (List TaskEvent)) (s : Workers)
    (hrun : Machine.run step (new n) ops = some (os, s)) (hstop : s.stopping = true) :
    s.Quiet ↔ ∀ w < n, ¬ s.InWindow w := by
  have hcounting : s.Counting := Machine.run_invariant Counting.step (Counting.new n) hrun
  have hthreads : s.threads = n := run_threads hrun
  simp only [stopping, Bool.and_eq_true, List.isEmpty_iff, beq_iff_eq] at hstop
  have hactive : ∀ w < n, (s.workers w).phase.active = false := by
    rw [← hthreads]
    exact census_eq_zero.mp (hcounting.active ▸ hstop.2)
  unfold Quiet
  rw [hthreads]
  constructor
  · rintro ⟨-, -, hready⟩ w hw
    rw [← holdsReady_iff_inWindow (hactive w hw)]
    exact hready w hw
  · intro hwindow
    refine ⟨hstop.1.2, hactive, fun w hw => ?_⟩
    rw [holdsReady_iff_inWindow (hactive w hw)]
    exact hwindow w hw

/-- Two workers; the second one is idle, the first one runs a fiber that yields
to `READY` while the scheduler is being stopped. -/
def yieldedReady : List Op :=
  [.create 7, .start, .schedule (some ⟨.fiber 7, none⟩), .worker 0 .start, .worker 1 .start,
    .worker 0 .dequeue, .worker 0 (.dispatch 0), .worker 0 .swapIn, .worker 1 .dequeue,
    .worker 1 (.dispatch 0), .setAutoStop, .setStopping, .worker 0 (.yield .toReady),
    .worker 0 .save, .worker 0 .decrement]

/-- The same, with a fiber that terminates. -/
def terminated : List Op :=
  [.create 7, .start, .schedule (some ⟨.fiber 7, none⟩), .worker 0 .start, .worker 0 .dequeue,
    .worker 0 (.dispatch 0), .worker 0 .swapIn, .setAutoStop, .setStopping,
    .worker 0 (.yield .term), .worker 0 .save, .worker 0 .decrement, .worker 0 .settle]

theorem stopping_quiet_terminated :
    ∃ os s, Machine.run step (new 2) terminated = some (os, s) ∧ s.stopping = true ∧
      (s.Quiet ↔ ∀ w < 2, ¬ s.InWindow w) := by
  have hrun : (Machine.run step (new 2) terminated).any (fun r => r.2.stopping) = true := by
    decide
  obtain ⟨⟨os, s⟩, hs, hstop⟩ := Option.any_eq_true _ _ |>.mp hrun
  exact ⟨os, s, hs, hstop, stopping_quiet_iff 2 terminated os s hs hstop⟩

/-- The idle worker is told that everything is done, and the fiber that has
yielded is still to be put back. -/
theorem not_quiet_yieldedReady :
    ¬ ∀ ops os s, Machine.run step (new 2) ops = some (os, s) → s.stopping = true → s.Quiet := by
  intro h
  have hrun : (Machine.run step (new 2) yieldedReady).any
      (fun r => r.2.stopping && decide ((r.2.workers 0).phase = .decremented 7 false) &&
        decide (r.2.state 7 = some .ready) && decide (r.2.threads = 2)) = true := by
    decide
  obtain ⟨⟨os, s⟩, hs, hfacts⟩ := Option.any_eq_true _ _ |>.mp hrun
  simp only [Bool.and_eq_true, decide_eq_true_eq] at hfacts
  obtain ⟨⟨⟨hstop, hphase⟩, hstate⟩, hthreads⟩ := hfacts
  refine (h yieldedReady os s hs hstop).2.2 0 (by omega) ?_
  simpa [HoldsReady, hphase] using hstate

end Workers

end Mingo
