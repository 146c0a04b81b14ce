import Mingo.Lib.Census
import Mingo.Scheduler.Workers

/-!
# The two counters of the scheduler

`m_activeThreadCount` and `m_idleThreadCount` are changed at three and two
places of `run`, outside the lock.

* `act_counted` -- a step of a worker changes that worker alone, and the
  counters by where it stands before and after;
* `Counting.step` -- they count the workers in the corresponding phases.
-/

namespace Mingo

namespace Workers

variable {s t : Workers} {w : Nat}

/-- A step of a worker changes that worker alone, and the two counters by
where it stands before and after. -/
structure Counted (s t : Workers) (w : Nat) (worker : RunWorker) : Prop where
  workers : t.workers = Function.update s.workers w worker
  threads : t.threads = s.threads
  active : t.activeThreadCount =
    s.activeThreadCount + worker.phase.active.toNat - (s.workers w).phase.active.toNat
  idle : t.idleThreadCount =
    s.idleThreadCount + worker.phase.idling.toNat - (s.workers w).phase.idling.toNat

/-- A step that leaves both counters alone. -/
theorem Counted.same {worker : RunWorker}
    (hworkers : t.workers = Function.update s.workers w worker) (hthreads : t.threads = s.threads)
    (hactive : t.activeThreadCount = s.activeThreadCount)
    (hidle : t.idleThreadCount = s.idleThreadCount)
    (hphase : worker.phase.active = (s.workers w).phase.active)
    (hphase' : worker.phase.idling = (s.workers w).phase.idling) : Counted s t w worker :=
  ⟨hworkers, hthreads, by rw [hactive, hphase]; omega, by rw [hidle, hphase']; omega⟩

/-- What is behind the search counts the worker as idle when nothing was found. -/
theorem dispatch_counted {fresh : Nat} {taken : Option Entry} {es : List TaskEvent}
    (hp : (s.workers w).phase = .searched taken none)
    (h : s.dispatch w fresh taken = some (es, t)) : ∃ worker, Counted s t w worker := by
  revert h
  fun_cases dispatch with
  | case5 => exact nofun
  | case7 => exact nofun
  | _ =>
      rintro ⟨⟩
      exact ⟨_, rfl, rfl, by simp [hp, RunPhase.active, setPhase, setWorker, setState],
        by simp [hp, RunPhase.idling, setPhase, setWorker, setState]⟩

/-- A search counts the worker as active when it takes an entry. -/
theorem dequeue_counted (hp : (s.workers w).phase = .polling) :
    ∃ worker, Counted s (s.dequeue w).2 w worker := by
  cases hsearch : (s.search w s.fibers).1 with
  | none =>
      simp only [dequeue, hsearch]
      exact ⟨_, .same rfl rfl rfl rfl (by rw [hp]; rfl) (by rw [hp]; rfl)⟩
  | some e =>
      simp only [dequeue, hsearch]
      exact ⟨_, rfl, rfl, by simp [hp, RunPhase.active, setPhase, setWorker],
        by simp [hp, RunPhase.idling, setPhase, setWorker]⟩

/-- A fiber that yields leaves both counters to the worker it ran on. -/
theorem yield_counted {f : Nat} {isCb : Bool} {how : Scheduler.Yield}
    (hp : (s.workers w).phase = .running f isCb) (h : s.yield w f isCb how = some t) :
    ∃ worker, Counted s t w worker := by
  refine ⟨{ s.workers w with phase := .saving f isCb }, ?_⟩
  cases how with
  | toHold =>
      obtain ⟨-, ⟨⟩⟩ := Option.ite_none_right_eq_some.mp h
      exact .same rfl rfl rfl rfl (by rw [hp]; rfl) (by rw [hp]; rfl)
  | toReady =>
      obtain ⟨-, ⟨⟩⟩ := Option.ite_none_right_eq_some.mp h
      exact .same rfl rfl rfl rfl (by rw [hp]; rfl) (by rw [hp]; rfl)
  | _ =>
      cases h
      exact .same rfl rfl rfl rfl (by rw [hp]; rfl) (by rw [hp]; rfl)

/-- So do the tests of the state of the fiber that has come back, -/
theorem settle_counted {f : Nat} {isCb : Bool} (hp : (s.workers w).phase = .decremented f isCb) :
    ∃ worker, Counted s (s.settle w f isCb) w worker := by
  fun_cases settle
  all_goals exact ⟨_, .same rfl rfl rfl rfl (by rw [hp]; rfl) (by rw [hp]; rfl)⟩

/-- and the push of a fiber that is to run again. -/
theorem requeue_counted {f : Nat} {isCb : Bool} (hp : (s.workers w).phase = .requeue f isCb) :
    ∃ worker, Counted s (s.requeue w f isCb).2 w worker := by
  refine ⟨_, .same rfl rfl rfl rfl ?_ ?_⟩
  · rw [hp]
    simp only
    split <;> rfl
  · rw [hp]
    simp only
    split <;> rfl

/-- What a step of a worker does to the counters. -/
theorem act_counted {a : Act} {p : RunPhase} {es : List TaskEvent} (hp : (s.workers w).phase = p)
    (h : s.act w a p = some (es, t)) : ∃ worker, Counted s t w worker := by
  revert h
  fun_cases act with
  | case2 =>
      intro h
      have hcounted := dequeue_counted hp
      rwa [Option.some.inj h] at hcounted
  | case3 taken =>
      rintro ⟨⟩
      exact ⟨_, .same rfl rfl rfl rfl (by rw [hp]; cases taken <;> rfl) (by rw [hp]; rfl)⟩
  | case4 taken =>
      rintro ⟨⟩
      exact ⟨_, .same rfl rfl rfl rfl (by rw [hp]; cases taken <;> rfl) (by rw [hp]; rfl)⟩
  | case5 => exact dispatch_counted hp
  | case8 how f isCb =>
      intro h
      obtain ⟨t', hyield, ⟨⟩⟩ := Option.map_eq_some_iff.mp h
      exact yield_counted hp hyield
  | case11 f isCb =>
      rintro ⟨⟩
      exact settle_counted hp
  | case12 f isCb =>
      intro h
      have hcounted := requeue_counted hp
      rwa [Option.some.inj h] at hcounted
  | case13 =>
      rintro ⟨⟩
      exact ⟨_, .same rfl rfl rfl rfl (by rw [hp]; simp only; split <;> rfl)
        (by rw [hp]; simp only; split <;> rfl)⟩
  | case17 blocks =>
      rintro ⟨⟩
      exact ⟨_, .same rfl rfl rfl rfl (by rw [hp]; simp only; split <;> rfl)
        (by rw [hp]; simp only; split <;> rfl)⟩
  | case19 =>
      rintro ⟨⟩
      exact ⟨s.workers w, .same (by simp) rfl rfl rfl rfl rfl⟩
  | case6 => exact nofun
  | case16 => exact nofun
  | case21 => exact nofun
  | _ =>
      rintro ⟨⟩
      exact ⟨_, rfl, rfl, by simp [hp, RunPhase.active, setPhase, setWorker, setState],
        by simp [hp, RunPhase.idling, setPhase, setWorker, setState]⟩

/-- The counters count the workers. -/
structure Counting (s : Workers) : Prop where
  active : s.activeThreadCount = census s.threads (fun x => x.phase.active) s.workers
  idle : s.idleThreadCount = census s.threads (fun x => x.phase.idling) s.workers

/-- No worker is active or idle before it has started. -/
theorem Counting.new (n : Nat) : (new n).Counting where
  active := (census_eq_zero.mpr fun _ _ => rfl).symm
  idle := (census_eq_zero.mpr fun _ _ => rfl).symm

/-- A step that moves one worker, and the counters with it. -/
theorem Counting.counted {worker : RunWorker} (h : s.Counting) (hw : w < s.threads)
    (hstep : Counted s t w worker) : t.Counting := by
  have hactive := census_update (fun x : RunWorker => x.phase.active) s.workers worker hw
  have hidle := census_update (fun x : RunWorker => x.phase.idling) s.workers worker hw
  constructor
  · rw [hstep.active, hstep.threads, hstep.workers, h.active]
    omega
  · rw [hstep.idle, hstep.threads, hstep.workers, h.idle]
    omega

/-- **Step lemma**: every step keeps the counters right. -/
theorem Counting.step (s : Workers) (op : Op) (es : List TaskEvent) (t : Workers) (h : s.Counting)
    (hstep : step s op = some (es, t)) : t.Counting := by
  rcases step_cases hstep with hout | ⟨w, a, -, hw, hact⟩
  · constructor
    · rw [hout.activeThreadCount, hout.threads, hout.workers]
      exact h.active
    · rw [hout.idleThreadCount, hout.threads, hout.workers]
      exact h.idle
  · obtain ⟨worker, hcounted⟩ := act_counted rfl hact
    exact h.counted hw hcounted

/-- The number of workers does not change. -/
theorem run_threads {n : Nat} {ops : List Op} {os : List (List TaskEvent)}
    (hrun : Machine.run step (new n) ops = some (os, s)) : s.threads = n := by
  have hstep : ∀ (s : Workers) op es t, s.threads = n → Workers.step s op = some (es, t) →
      t.threads = n := by
    intro s op es t h hstep
    rcases step_cases hstep with hout | ⟨w, a, -, -, hact⟩
    · exact hout.threads.trans h
    · obtain ⟨worker, hcounted⟩ := act_counted rfl hact
      exact hcounted.threads.trans h
  exact Machine.run_invariant hstep rfl hrun

end Workers

end Mingo
