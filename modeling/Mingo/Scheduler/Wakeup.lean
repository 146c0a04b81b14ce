import Mingo.Scheduler.Counters

/-!
# Wake-ups for scheduled tasks

`schedule` calls `tickle` when it pushes onto an empty queue, and `run` when it
leaves something behind for others; `tickle` writes to the pipe when it finds
an idle thread counted.

A worker that has searched in vain rests until it searches again; one that has
not entered `run` yet is to search.  A state is `Noticed` when the pipe is not
empty, a `tickle` is under way, or some worker is to search before it rests.

* `act_rests` -- how a step of a worker can end without that worker being
  about to search;
* `Heard` -- the steps that cannot lose a wake-up;
* `noticed_of_waiting` -- in the runs made of such steps, no blocked worker
  that may run a queued entry goes unnoticed.
-/

namespace Mingo

namespace RunPhase

/-- The worker will search the queue before it blocks. -/
def awake : RunPhase → Bool
  | .searched none _ => false
  | .idle => false
  | .waiting => false
  | .exited => false
  | _ => true

/-- The worker has searched in vain and can block without searching again. -/
def resting : RunPhase → Bool
  | .searched none _ => true
  | .idle => true
  | .waiting => true
  | _ => false

/-- The worker has decided to call `tickle` and has not done so. -/
def tickles : RunPhase → Bool
  | .searched _ (some _) => true
  | .requeued _ => true
  | _ => false

end RunPhase

namespace Workers

variable {s t : Workers} {w : Nat}

/-- A thread has decided to call `tickle` and has not done so. -/
def Tickled (s : Workers) : Prop :=
  0 < s.called ∨ 0 < s.writing ∨ ∃ w < s.threads, (s.workers w).phase.tickles = true

/-- The pipe is not empty, a `tickle` is under way, or a worker is about to
search. -/
def Noticed (s : Workers) : Prop :=
  0 < s.pipe ∨ s.Tickled ∨ ∃ w < s.threads, (s.workers w).phase.awake = true

/-- No resting worker may run any of the entries. -/
def Unneeded (s : Workers) : Prop :=
  ∀ w < s.threads, (s.workers w).phase.resting = true → ∀ e ∈ s.fibers, ¬ s.Allowed w e

instance (s : Workers) : Decidable s.Tickled :=
  inferInstanceAs (Decidable (0 < s.called ∨ 0 < s.writing ∨
    ∃ w < s.threads, (s.workers w).phase.tickles = true))

instance (s : Workers) : Decidable s.Noticed :=
  inferInstanceAs (Decidable (0 < s.pipe ∨ s.Tickled ∨
    ∃ w < s.threads, (s.workers w).phase.awake = true))

instance (s : Workers) : Decidable s.Unneeded :=
  inferInstanceAs (Decidable (∀ w < s.threads, (s.workers w).phase.resting = true →
    ∀ e ∈ s.fibers, ¬ s.Allowed w e))

/-- Tasks are pushed from outside onto a queue that is not empty, so that no
`tickle` follows: the state is noticed all the same, or no resting worker may run
anything. -/
def HeardPush (s : Workers) (tasks : List (Option FiberAndThread)) : Prop :=
  s.fibers ≠ [] →
    (scheduled (s.scheduleAll tasks)).2.Noticed ∨ (scheduled (s.scheduleAll tasks)).2.Unneeded

instance (s : Workers) (tasks : List (Option FiberAndThread)) : Decidable (s.HeardPush tasks) :=
  inferInstanceAs (Decidable (s.fibers ≠ [] → _ ∨ _))

/-- The steps that cannot lose a wake-up: a `tickle` that finds no idle thread
counted does so while no worker that may run an entry is between its search and
the increment of `m_idleThreadCount`, and a push from outside that asks for no
`tickle` is heard. -/
def Heard (s : Workers) : Op → Prop
  | .tickle => s.idleThreadCount = 0 → s.Unneeded
  | .worker _ .tickle => s.idleThreadCount = 0 → s.Unneeded
  | .schedule ft => s.HeardPush [ft]
  | .scheduleAll tasks => s.HeardPush (tasks.map fun task => task.map fun t => ⟨t, none⟩)
  | _ => True

instance (s : Workers) : DecidablePred s.Heard
  | .tickle => inferInstanceAs (Decidable (s.idleThreadCount = 0 → s.Unneeded))
  | .worker _ .tickle => inferInstanceAs (Decidable (s.idleThreadCount = 0 → s.Unneeded))
  | .schedule _ => inferInstanceAs (Decidable (s.HeardPush _))
  | .scheduleAll _ => inferInstanceAs (Decidable (s.HeardPush _))
  | .worker _ .start | .worker _ .dequeue | .worker _ .write | .worker _ (.dispatch _)
  | .worker _ .swapIn | .worker _ (.yield _) | .worker _ .save | .worker _ .decrement
  | .worker _ .settle | .worker _ .requeue | .worker _ .finishIdle | .worker _ (.epollWait _)
  | .worker _ .wake | .worker _ .drain | .worker _ .leaveIdle | .create _ | .callTickle
  | .write | .start | .setAutoStop | .setStopping => isTrue trivial

/-- What is left alone by a step that ends in a resting worker. -/
structure Shared (s t : Workers) : Prop where
  fibers : t.fibers = s.fibers
  state : t.state = s.state
  called : t.called = s.called
  writing : t.writing = s.writing
  pipe : t.pipe = s.pipe

/-- The same entries are allowed. -/
theorem Shared.allowed (h : Shared s t) (v : Nat) (e : Entry) : t.Allowed v e ↔ s.Allowed v e := by
  unfold Allowed executing
  rw [h.state]

/-- A worker behind its search is awake, or found nothing. -/
theorem dispatch_rests {fresh : Nat} {taken : Option Entry} {es : List TaskEvent}
    (h : s.dispatch w fresh taken = some (es, t)) :
    (t.workers w).phase.awake = true ∨ (taken = none ∧ Shared s t) := by
  revert h
  fun_cases dispatch with
  | case5 => intro h; cases h
  | case7 => intro h; cases h
  | case6 =>
      intro h
      cases h
      exact .inl (by simp [setWorker, RunPhase.awake])
  | case8 =>
      intro h
      cases h
      exact .inr ⟨rfl, rfl, rfl, rfl, rfl, rfl⟩
  | case9 =>
      intro h
      cases h
      exact .inr ⟨rfl, rfl, rfl, rfl, rfl, rfl⟩
  | _ =>
      intro h
      cases h
      exact .inl (by simp [RunPhase.awake])

/-- How a step of a worker can end: the worker is about to search, it has
searched in vain, its call of `tickle` has looked at the counter or written to
the pipe, or it has moved on while resting. -/
theorem act_rests {a : Act} {p : RunPhase} {es : List TaskEvent}
    (hp : (s.workers w).phase = p) (h : s.act w a p = some (es, t)) :
    (t.workers w).phase.awake = true ∨ 0 < t.pipe ∨
      (Shared s t ∧
        ((p = .polling ∧ (s.search w s.fibers).1 = none ∧
            (t.workers w).phase =
              .searched none (if (s.search w s.fibers).2.2 then some .called else none)) ∨
          (a = .tickle ∧ p = .searched none (some .called) ∧
            (t.workers w).phase = .searched none s.checked) ∨
          (p.resting = true ∧ p.tickles = false))) := by
  revert h
  fun_cases act with
  | case2 =>
      intro h
      cases hsearch : (s.search w s.fibers).1 with
      | none =>
          obtain ⟨hrest, -, -⟩ := search_none hsearch
          simp only [dequeue, hsearch] at h
          cases h
          exact .inr (.inr ⟨⟨hrest, rfl, rfl, rfl, rfl⟩, .inl ⟨rfl, rfl, setPhase_workers _⟩⟩)
      | some e =>
          simp only [dequeue, hsearch] at h
          cases h
          exact .inl (by simp [RunPhase.awake])
  | case3 taken =>
      intro h
      cases h
      cases taken with
      | none =>
          exact .inr (.inr ⟨⟨rfl, rfl, rfl, rfl, rfl⟩, .inr (.inl ⟨rfl, rfl, setPhase_workers _⟩)⟩)
      | some e => exact .inl (by simp [RunPhase.awake])
  | case4 taken =>
      intro h
      cases h
      exact .inr (.inl (Nat.succ_pos _))
  | case5 fresh taken =>
      intro h
      rcases dispatch_rests h with hawake | ⟨rfl, hshared⟩
      · exact .inl hawake
      · exact .inr (.inr ⟨hshared, .inr (.inr ⟨rfl, rfl⟩)⟩)
  | case8 how f isCb =>
      intro h
      obtain ⟨t', hyield, ⟨⟩⟩ := Option.map_eq_some_iff.mp h
      exact .inl (by rw [yield_phase hyield]; rfl)
  | case11 f isCb =>
      intro h
      cases h
      left
      rw [settle_phase]
      split <;> rfl
  | case12 f isCb =>
      intro h
      left
      have hphase := requeue_phase (s := s) (w := w) f isCb
      rw [Option.some.inj h] at hphase
      rw [hphase]
      split <;> rfl
  | case13 =>
      intro h
      cases h
      left
      rw [setPhase_workers]
      split <;> rfl
  | case15 =>
      intro h
      cases h
      exact .inl (by simp [setWorker, RunPhase.awake])
  | case17 blocks =>
      intro h
      cases h
      exact .inr (.inr ⟨⟨rfl, rfl, rfl, rfl, rfl⟩, .inr (.inr ⟨rfl, rfl⟩)⟩)
  | case19 =>
      intro h
      cases h
      exact .inl (by rw [hp]; rfl)
  | case6 => intro h; cases h
  | case16 => intro h; cases h
  | case21 => intro h; cases h
  | _ =>
      intro h
      cases h
      exact .inl (by simp [RunPhase.awake])

/-- A worker that was not behind it rests: the state stays noticed. -/
theorem Noticed.of_shared {worker : RunWorker} (h : s.Noticed) (hshared : Shared s t)
    (hcounted : Counted s t w worker) (hawake : (s.workers w).phase.awake = false)
    (htickles : (s.workers w).phase.tickles = false) : t.Noticed := by
  have hother : ∀ q : RunPhase → Bool, q (s.workers w).phase = false →
      (∃ v < s.threads, q (s.workers v).phase = true) →
        ∃ v < t.threads, q (t.workers v).phase = true := by
    intro q hq hex
    obtain ⟨v, hv, hqv⟩ := hex
    have hne : v ≠ w := by
      intro heq
      rw [heq, hq] at hqv
      cases hqv
    refine ⟨v, by rw [hcounted.threads]; exact hv, ?_⟩
    rw [hcounted.workers, Function.update_of_ne hne]
    exact hqv
  unfold Noticed Tickled at h ⊢
  rw [hshared.pipe, hshared.called, hshared.writing]
  rcases h with hpipe | (hcalled | hwriting | hex) | hex
  · exact .inl hpipe
  · exact .inr (.inl (.inl hcalled))
  · exact .inr (.inl (.inr (.inl hwriting)))
  · exact .inr (.inl (.inr (.inr (hother _ htickles hex))))
  · exact .inr (.inr (hother _ hawake hex))

/-- A worker that was resting moves on. -/
theorem Unneeded.of_shared {worker : RunWorker} (h : s.Unneeded) (hshared : Shared s t)
    (hcounted : Counted s t w worker) (hresting : (s.workers w).phase.resting = true) :
    t.Unneeded := by
  intro v hv hrest e he hallowed
  rw [hcounted.threads] at hv
  rw [hshared.fibers] at he
  rw [hshared.allowed] at hallowed
  by_cases heq : v = w
  · exact h v hv (heq ▸ hresting) e he hallowed
  · rw [hcounted.workers, Function.update_of_ne heq] at hrest
    exact h v hv hrest e he hallowed

/-- What a search in vain leaves behind is bound to other workers, of which
`tickle_me` is set, or belongs to running fibers. -/
theorem unneeded_of_search (h : (s.search w s.fibers).1 = none)
    (htickle : (s.search w s.fibers).2.2 = false) : ∀ v, ∀ e ∈ s.fibers, ¬ s.Allowed v e := by
  obtain ⟨-, hnone, hiff⟩ := search_none h
  intro v e he hallowed
  have hbound : bound w e = false := by
    cases hb : bound w e with
    | false => rfl
    | true =>
        rw [hiff.mpr ⟨e, he, hb⟩] at htickle
        cases htickle
  exact hnone e he ⟨hbound, hallowed.2⟩

/-- A worker that rests is not awake. -/
theorem awake_of_resting {p : RunPhase} (h : p.resting = true) : p.awake = false := by
  cases p with
  | searched taken tickle =>
      cases taken with
      | none => rfl
      | some e => cases h
  | idle => rfl
  | waiting => rfl
  | _ => cases h

/-- A step of a worker. -/
theorem act_watched {a : Act} {es : List TaskEvent} (h : s.Noticed ∨ s.Unneeded)
    (hw : w < s.threads) (hheard : s.Heard (.worker w a))
    (hact : s.act w a (s.workers w).phase = some (es, t)) : t.Noticed ∨ t.Unneeded := by
  obtain ⟨worker, hcounted⟩ := act_counted rfl hact
  have hw' : w < t.threads := by
    rw [hcounted.threads]
    exact hw
  rcases act_rests rfl hact with hawake | hpipe | ⟨hshared, hcase⟩
  · exact .inl (.inr (.inr ⟨w, hw', hawake⟩))
  · exact .inl (.inl hpipe)
  · rcases hcase with ⟨-, hsearch, hphase⟩ | ⟨rfl, hp, hphase⟩ | ⟨hresting, htickles⟩
    · cases hflag : (s.search w s.fibers).2.2 with
      | true =>
          refine .inl (.inr (.inl (.inr (.inr ⟨w, hw', ?_⟩))))
          rw [hphase, hflag]
          rfl
      | false =>
          refine .inr fun v _ _ e he => ?_
          rw [hshared.allowed]
          exact unneeded_of_search hsearch hflag v e (hshared.fibers ▸ he)
    · by_cases hidle : s.idleThreadCount = 0
      · have hresting : (s.workers w).phase.resting = true := by
          rw [hp]
          rfl
        exact .inr ((hheard hidle).of_shared hshared hcounted hresting)
      · have hchecked : s.checked = some .writing := by
          simp [checked, hasIdleThreads, Nat.pos_of_ne_zero hidle]
        refine .inl (.inr (.inl (.inr (.inr ⟨w, hw', ?_⟩))))
        rw [hphase, hchecked]
        rfl
    · rcases h with hnoticed | hunneeded
      · exact .inl (hnoticed.of_shared hshared hcounted (awake_of_resting hresting) htickles)
      · exact .inr (hunneeded.of_shared hshared hcounted hresting)

/-- A push from outside. -/
theorem scheduled_watched {fts : List (Option FiberAndThread)} (h : s.Noticed ∨ s.Unneeded)
    (hheard : s.HeardPush fts) :
    (scheduled (s.scheduleAll fts)).2.Noticed ∨ (scheduled (s.scheduleAll fts)).2.Unneeded := by
  by_cases hempty : s.fibers = []
  · cases fts with
    | nil => simpa [scheduled, scheduleAll] using h
    | cons ft fts =>
        -- the queue was empty, so a call of `tickle` follows
        obtain ⟨-, -, hneed⟩ := scheduleAll_spec (ft :: fts) s
        refine .inl (.inr (.inl (.inl ?_)))
        simp only [scheduled, hneed, hempty]
        exact Nat.lt_add_left _ Nat.one_pos
  · exact hheard hempty

/-- A new fiber was not running before. -/
theorem allowed_of_create {f v : Nat} {e : Entry} (hnone : s.state f = none)
    (h : (s.setState f .init).Allowed v e) : s.Allowed v e := by
  refine ⟨h.1, ?_⟩
  have hexec := h.2
  unfold executing setState at hexec
  unfold executing
  cases htask : e.task with
  | cb c => rfl
  | fiber g =>
      simp only [htask] at hexec ⊢
      by_cases hg : g = f
      · simp [hg, hnone]
      · simpa [hg] using hexec

/-- **Step lemma.**  A step that cannot lose a wake-up keeps every resting
worker noticed or unneeded. -/
theorem step_watched (s : Workers) (op : Op) (es : List TaskEvent) (t : Workers)
    (h : s.Noticed ∨ s.Unneeded) (hheard : s.Heard op) (hstep : step s op = some (es, t)) :
    t.Noticed ∨ t.Unneeded := by
  cases op with
  | worker w a =>
      obtain ⟨hw, hact⟩ := Option.ite_none_right_eq_some.mp hstep
      exact act_watched h hw hheard hact
  | schedule ft =>
      cases hstep
      exact scheduled_watched h hheard
  | scheduleAll tasks =>
      cases hstep
      exact scheduled_watched h hheard
  | callTickle =>
      cases hstep
      exact .inl (.inr (.inl (.inl (Nat.succ_pos _))))
  | tickle =>
      obtain ⟨-, ⟨⟩⟩ := Option.ite_none_right_eq_some.mp hstep
      by_cases hidle : s.idleThreadCount = 0
      · exact .inr (hheard hidle)
      · refine .inl (.inr (.inl (.inr (.inl ?_))))
        simp [hasIdleThreads, Nat.pos_of_ne_zero hidle]
  | write =>
      obtain ⟨-, ⟨⟩⟩ := Option.ite_none_right_eq_some.mp hstep
      exact .inl (.inl (Nat.succ_pos _))
  | create f =>
      obtain ⟨hnone, ⟨⟩⟩ := Option.ite_none_right_eq_some.mp hstep
      rcases h with hnoticed | hunneeded
      · exact .inl hnoticed
      · exact .inr fun v hv hrest e he hallowed =>
          hunneeded v hv hrest e he (allowed_of_create hnone hallowed)
  | start =>
      obtain ⟨-, ⟨⟩⟩ := Option.ite_none_right_eq_some.mp hstep
      exact h
  | setAutoStop =>
      cases hstep
      exact h
  | setStopping =>
      cases hstep
      exact h

/-- **No lost scheduling wake-up.**  In every run whose steps cannot lose one, a
worker that is blocked in `epoll_wait` while the queue holds an entry that it
may run is noticed: the pipe is not empty, a thread has decided to call
`tickle` and has not done so, or some worker will search the queue before it
blocks. -/
theorem noticed_of_waiting (n : Nat) (ops : List Op) (os : List (List TaskEvent)) (s : Workers)
    (hrun : Machine.run step (new n) ops = some (os, s))
    (hheard : Machine.Meets step Heard (new n) ops) (w : Nat) (hw : w < n)
    (hwaiting : (s.workers w).phase = .waiting) (e : Entry) (he : e ∈ s.fibers)
    (hallowed : s.Allowed w e) : s.Noticed := by
  have hnew : (new n).Noticed ∨ (new n).Unneeded := .inr fun v _ hrest => by cases hrest
  have hstep : ∀ s op es t, (Noticed s ∨ Unneeded s) → Heard s op → step s op = some (es, t) →
      (Noticed t ∨ Unneeded t) ∧ True :=
    fun s op es t h hheard hstep => ⟨step_watched s op es t h hheard hstep, trivial⟩
  have hwatched := (Machine.run_invariant_of_meets hstep hnew hheard hrun).1
  rcases hwatched with hnoticed | hunneeded
  · exact hnoticed
  · have hw' : w < s.threads := by
      rw [run_threads hrun]
      exact hw
    have hresting : (s.workers w).phase.resting = true := by
      rw [hwaiting]
      rfl
    exact absurd hallowed (hunneeded w hw' hresting e he)

/-- Two workers block in `epoll_wait`, and a callback is scheduled. -/
def bothWaiting : List Op :=
  [.start, .worker 0 .start, .worker 0 .dequeue, .worker 0 (.dispatch 0),
    .worker 0 (.epollWait true), .worker 1 .start, .worker 1 .dequeue, .worker 1 (.dispatch 0),
    .worker 1 (.epollWait true), .schedule (some ⟨.cb 5, none⟩), .tickle, .write]

/-- Two workers that sleep, and an entry that either may take. -/
theorem noticed_bothWaiting :
    ∃ os s, Machine.run step (new 2) bothWaiting = some (os, s) ∧
      (s.workers 1).phase = .waiting ∧ s.Allowed 1 ⟨⟨.cb 5, none⟩, 0⟩ ∧ s.Noticed := by
  have hheard : Machine.Meets step Heard (new 2) bothWaiting := by decide
  have hrun : (Machine.run step (new 2) bothWaiting).any (fun r =>
      decide ((r.2.workers 1).phase = .waiting) && decide (r.2.fibers = [⟨⟨.cb 5, none⟩, 0⟩]) &&
        decide (r.2.Allowed 1 ⟨⟨.cb 5, none⟩, 0⟩)) = true := by decide
  obtain ⟨⟨os, s⟩, hs, hfacts⟩ := Option.any_eq_true _ _ |>.mp hrun
  simp only [Bool.and_eq_true, decide_eq_true_eq] at hfacts
  obtain ⟨⟨hwaiting, hfibers⟩, hallowed⟩ := hfacts
  exact ⟨os, s, hs, hwaiting, hallowed,
    noticed_of_waiting 2 bothWaiting os s hs hheard 1 (by decide) hwaiting _
      (by simp [hfibers]) hallowed⟩

/-- One of them wakes up and drains the pipe; until it searches the queue, the
other one is blocked with no `tickle` under way. -/
theorem not_tickled_after_drain :
    ¬ ∀ ops os s, Machine.run step (new 2) ops = some (os, s) →
      ∀ w < 2, (s.workers w).phase = .waiting → ∀ e ∈ s.fibers, s.Allowed w e →
        0 < s.pipe ∨ s.Tickled := by
  intro h
  have hrun : (Machine.run step (new 2)
      (bothWaiting ++ [.worker 0 .wake, .worker 0 .drain])).any (fun r =>
        decide ((r.2.workers 1).phase = .waiting) && decide (r.2.fibers = [⟨⟨.cb 5, none⟩, 0⟩]) &&
        decide (r.2.Allowed 1 ⟨⟨.cb 5, none⟩, 0⟩) && decide (r.2.pipe = 0) &&
        decide (¬ r.2.Tickled)) = true := by decide
  obtain ⟨⟨os, s⟩, hs, hfacts⟩ := Option.any_eq_true _ _ |>.mp hrun
  simp only [Bool.and_eq_true, decide_eq_true_eq] at hfacts
  obtain ⟨⟨⟨⟨hwaiting, hfibers⟩, hallowed⟩, hpipe⟩, htickled⟩ := hfacts
  rcases h _ os s hs 1 (by decide) hwaiting _ (by simp [hfibers]) hallowed with hpos | htick
  · omega
  · exact htickled htick

end Workers

end Mingo
