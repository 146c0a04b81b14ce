import Mathlib.Data.List.Count
import Mathlib.Data.List.Nodup
import Mingo.Scheduler.Counters

/-!
# No task is lost, doubled or run by the wrong worker

What a step does to the entries of `m_fibers` is one of five things
(`TaskStep`); the rest of the development counts entries by that alone.

* `step_tasks` -- every step is of one of the five kinds;
* `conservation` -- the account of every entry in every run.
-/

namespace Mingo

namespace Workers

variable {s t : Workers} {w : Nat}

/-- The entry that a worker has removed and not dealt with yet. -/
def held (s : Workers) (w : Nat) : Option Entry := (s.workers w).phase.holds

/-- What a step does to the entries. -/
inductive TaskStep (s t : Workers) : List TaskEvent → Prop
  | push (es : List Entry) (hfibers : t.fibers = s.fibers ++ es)
      (hnext : t.nextId = s.nextId + es.length)
      (hids : es.map Entry.id = List.range' s.nextId es.length) (hheld : t.held = s.held) :
      TaskStep s t (es.map .pushed)
  | remove (w : Nat) (e : Entry) (pre post : List Entry) (hfibers : s.fibers = pre ++ e :: post)
      (hfibers' : t.fibers = pre ++ post) (hnext : t.nextId = s.nextId)
      (hpre : ∀ x ∈ pre, ¬ s.Allowed w x) (he : s.Allowed w e)
      (hw : s.held w = none) (hheld : t.held = Function.update s.held w (some e)) :
      TaskStep s t [.removed w e]
  | execute (w : Nat) (e : Entry) (hfibers : t.fibers = s.fibers) (hnext : t.nextId = s.nextId)
      (hw : s.held w = some e) (hheld : t.held = Function.update s.held w none) :
      TaskStep s t [.executed w e]
  | drop (w f : Nat) (e : Entry) (st : FiberState) (hfibers : t.fibers = s.fibers)
      (hnext : t.nextId = s.nextId) (htask : e.task = .fiber f) (hst : s.state f = some st)
      (hfinished : st = .term ∨ st = .except)
      (hw : s.held w = some e) (hheld : t.held = Function.update s.held w none) :
      TaskStep s t [.dropped w e st]

/-- A step that changes no entry. -/
theorem TaskStep.quiet (hfibers : t.fibers = s.fibers) (hnext : t.nextId = s.nextId)
    (hheld : t.held = s.held) : TaskStep s t [] :=
  .push [] (by simp [hfibers]) (by simp [hnext]) rfl hheld

/-- The entry in the hands of a worker is told by its phase. -/
theorem held_setWorker (worker : RunWorker) :
    (s.setWorker w worker).held = Function.update s.held w worker.phase.holds := by
  funext v
  by_cases hv : v = w
  · subst hv
    simp [held, setWorker]
  · simp [held, setWorker, hv]

/-- So it is when only the phase changes. -/
theorem held_setPhase (p : RunPhase) :
    (s.setPhase w p).held = Function.update s.held w p.holds := held_setWorker _

/-- The worker's own entry does not change. -/
theorem held_setWorker_self (worker : RunWorker) (h : worker.phase.holds = s.held w) :
    (s.setWorker w worker).held = s.held := by
  rw [held_setWorker, h, Function.update_eq_self]

/-- **A search** takes the earliest entry that the worker may run, or nothing. -/
theorem dequeue_tasks (h : (s.workers w).phase = .polling) :
    TaskStep s (s.dequeue w).2 (s.dequeue w).1 := by
  have hw : s.held w = none := by simp [held, h, RunPhase.holds]
  cases hsearch : (s.search w s.fibers).1 with
  | none =>
      obtain ⟨hrest, -, -⟩ := search_none hsearch
      simp only [dequeue, hsearch]
      refine .quiet hrest rfl ?_
      exact (held_setPhase _).trans (hw ▸ Function.update_eq_self _ _)
  | some e =>
      obtain ⟨pre, post, hl, hrest, hpre, he⟩ := search_some hsearch
      simp only [dequeue, hsearch]
      exact .remove w e pre post hl hrest rfl hpre he hw (held_setPhase _)

/-- Behind the search an entry is dropped when its fiber has ended, and kept otherwise.
-/
theorem dispatch_tasks {fresh : Nat} {taken : Option Entry} {es : List TaskEvent}
    (hw : s.held w = taken) (h : s.dispatch w fresh taken = some (es, t)) : TaskStep s t es := by
  revert h
  fun_cases dispatch with
  | case1 e f htask hterm =>
      rintro ⟨⟩
      exact .drop w f e .term rfl rfl htask hterm (.inl rfl) hw (held_setPhase _)
  | case2 e f htask hexcept =>
      rintro ⟨⟩
      exact .drop w f e .except rfl rfl htask hexcept (.inr rfl) hw (held_setPhase _)
  | case3 e f =>
      rintro ⟨⟩
      exact .quiet rfl rfl (held_setWorker_self _ hw.symm)
  | case4 e c htask f hcb hstate =>
      rintro ⟨⟩
      exact .quiet rfl rfl (held_setWorker_self (s := s.setState f .init) _ hw.symm)
  | case6 e c htask hcb hfree =>
      rintro ⟨⟩
      exact .quiet rfl rfl (held_setWorker_self (s := s.setState fresh .init) _ hw.symm)
  | case8 =>
      rintro ⟨⟩
      exact .quiet rfl rfl (held_setWorker_self _ hw.symm)
  | case9 =>
      rintro ⟨⟩
      exact .quiet rfl rfl (held_setWorker_self
        (s := { s with idleThreadCount := s.idleThreadCount + 1 }) _ hw.symm)
  | _ =>
      intro h
      cases h

/-- A fiber that yields touches no entry, -/
theorem yield_tasks {f : Nat} {isCb : Bool} {how : Scheduler.Yield}
    (hw : s.held w = none) (h : s.yield w f isCb how = some t) : TaskStep s t [] := by
  have hheld : (s.setPhase w (.saving f isCb)).held = s.held := held_setWorker_self _ hw.symm
  cases how with
  | toHold =>
      obtain ⟨-, ⟨⟩⟩ := Option.ite_none_right_eq_some.mp h
      exact .quiet rfl rfl hheld
  | toReady =>
      obtain ⟨-, ⟨⟩⟩ := Option.ite_none_right_eq_some.mp h
      exact .quiet rfl rfl hheld
  | _ =>
      cases h
      exact .quiet rfl rfl hheld

/-- nor do the tests of its state; -/
theorem settle_tasks {f : Nat} {isCb : Bool} (hw : s.held w = none) :
    TaskStep s (s.settle w f isCb) [] := by
  fun_cases settle
  all_goals exact .quiet rfl rfl (held_setWorker_self _ hw.symm)

/-- a fiber that is to run again becomes a new entry without a thread. -/
theorem requeue_tasks (f : Nat) (isCb : Bool) (hw : s.held w = none) :
    TaskStep s (s.requeue w f isCb).2 (s.requeue w f isCb).1 := by
  refine .push [⟨⟨.fiber f, none⟩, s.nextId⟩] rfl rfl rfl ?_
  refine held_setWorker_self (s := (s.scheduleNoLock (some ⟨.fiber f, none⟩)).2.2) _ ?_
  simp only
  split
  · exact hw.symm
  · exact hw.symm

/-- What a step of a worker does to the entries. -/
theorem act_tasks {a : Act} {p : RunPhase} {es : List TaskEvent} (hp : (s.workers w).phase = p)
    (h : s.act w a p = some (es, t)) : TaskStep s t es := by
  have hw : s.held w = p.holds := by rw [held, hp]
  have hself : ∀ q : RunPhase, q.holds = s.held w → (s.setPhase w q).held = s.held :=
    fun q hq => held_setWorker_self _ hq
  revert h
  fun_cases act with
  | case1 =>
      rintro ⟨⟩
      exact .quiet rfl rfl (hself _ hw.symm)
  | case2 =>
      intro h
      have htask := dequeue_tasks hp
      rwa [Option.some.inj h] at htask
  | case3 =>
      rintro ⟨⟩
      exact .quiet rfl rfl (hself _ hw.symm)
  | case4 =>
      rintro ⟨⟩
      exact .quiet rfl rfl (hself _ hw.symm)
  | case5 => exact dispatch_tasks hw
  | case7 e f isCb =>
      rintro ⟨⟩
      exact .execute w e rfl rfl hw (held_setPhase (s := s.setState f .exec) _)
  | case8 how f isCb =>
      intro h
      obtain ⟨t', hyield, ⟨⟩⟩ := Option.map_eq_some_iff.mp h
      exact yield_tasks hw hyield
  | case9 =>
      rintro ⟨⟩
      exact .quiet rfl rfl (hself _ hw.symm)
  | case10 =>
      rintro ⟨⟩
      exact .quiet rfl rfl (hself _ hw.symm)
  | case11 =>
      rintro ⟨⟩
      exact settle_tasks hw
  | case12 f isCb =>
      intro h
      have htask := requeue_tasks f isCb hw
      rwa [Option.some.inj h] at htask
  | case13 =>
      rintro ⟨⟩
      refine .quiet rfl rfl (hself _ ?_)
      split
      · exact hw.symm
      · exact hw.symm
  | case14 =>
      rintro ⟨⟩
      exact .quiet rfl rfl (hself _ hw.symm)
  | case15 =>
      rintro ⟨⟩
      exact .quiet rfl rfl (held_setWorker_self
        (s := { s with idleThreadCount := s.idleThreadCount - 1 }) _ hw.symm)
  | case17 blocks =>
      rintro ⟨⟩
      refine .quiet rfl rfl (hself _ ?_)
      split
      · exact hw.symm
      · exact hw.symm
  | case18 =>
      rintro ⟨⟩
      exact .quiet rfl rfl (hself _ hw.symm)
  | case19 =>
      rintro ⟨⟩
      exact .quiet rfl rfl rfl
  | case20 =>
      rintro ⟨⟩
      exact .quiet rfl rfl (hself _ hw.symm)
  | _ =>
      intro h
      cases h

/-- Every step does one of these things to the entries. -/
theorem step_tasks {op : Op} {es : List TaskEvent} (h : step s op = some (es, t)) :
    TaskStep s t es := by
  cases op with
  | schedule ft =>
      obtain ⟨hstate, hids, -⟩ := scheduleAll_spec [ft] s
      cases h
      refine .push (s.scheduleAll [ft]).1 (by simp [hstate]) (by simp [hstate]) hids ?_
      funext v
      simp [held, hstate]
  | scheduleAll tasks =>
      obtain ⟨hstate, hids, -⟩ :=
        scheduleAll_spec (tasks.map fun task => task.map fun t => ⟨t, none⟩) s
      cases h
      refine .push _ (by simp [hstate]) (by simp [hstate]) hids ?_
      funext v
      simp [held, hstate]
  | worker w a =>
      obtain ⟨-, hact⟩ := Option.ite_none_right_eq_some.mp h
      exact act_tasks rfl hact
  | callTickle =>
      cases h
      exact .quiet rfl rfl rfl
  | setAutoStop =>
      cases h
      exact .quiet rfl rfl rfl
  | setStopping =>
      cases h
      exact .quiet rfl rfl rfl
  | create f =>
      obtain ⟨-, ⟨⟩⟩ := Option.ite_none_right_eq_some.mp h
      exact .quiet rfl rfl rfl
  | tickle =>
      obtain ⟨-, ⟨⟩⟩ := Option.ite_none_right_eq_some.mp h
      exact .quiet rfl rfl rfl
  | write =>
      obtain ⟨-, ⟨⟩⟩ := Option.ite_none_right_eq_some.mp h
      exact .quiet rfl rfl rfl
  | start =>
      obtain ⟨-, ⟨⟩⟩ := Option.ite_none_right_eq_some.mp h
      exact .quiet rfl rfl rfl

/-- The event removes the entry from the queue. -/
def removes (e : Entry) : TaskEvent → Bool
  | .removed _ e' => e' = e
  | _ => false

/-- The account of every entry, after the events `log`. -/
structure Conserved (log : List TaskEvent) (s : Workers) : Prop where
  queued : ∀ e, log.count (.pushed e) = s.fibers.count e + log.countP (removes e)
  fresh : ∀ e, s.nextId ≤ e.id → log.count (.pushed e) = 0
  once : ∀ e, log.count (.pushed e) ≤ 1
  taken : ∀ w e, log.count (.removed w e) =
    (if s.held w = some e then 1 else 0) + log.count (.executed w e) +
      (log.count (.dropped w e .term) + log.count (.dropped w e .except))
  bound : ∀ w e, .removed w e ∈ log → e.thread = none ∨ e.thread = some w
  finished : ∀ w e st, .dropped w e st ∈ log → st = .term ∨ st = .except

/-- Nothing has happened to a new scheduler. -/
theorem Conserved.new (n : Nat) : Conserved [] (new n) := by
  constructor <;> simp [Workers.new, held, RunPhase.holds]

/-- An entry that the worker may take is for any thread or for its own. -/
theorem thread_of_allowed {e : Entry} (h : s.Allowed w e) :
    e.thread = none ∨ e.thread = some w := by
  have hbound := h.1
  simp only [Workers.bound, decide_eq_false_iff_not] at hbound
  tauto

variable {log : List TaskEvent}

/-- New entries come with new numbers to the end of the queue. -/
theorem Conserved.push {es : List Entry} (h : Conserved log s)
    (hfibers : t.fibers = s.fibers ++ es) (hnext : t.nextId = s.nextId + es.length)
    (hids : es.map Entry.id = List.range' s.nextId es.length) (hheld : t.held = s.held) :
    Conserved (log ++ es.map .pushed) t := by
  have hcount : ∀ e, (es.map TaskEvent.pushed).count (.pushed e) = es.count e := by
    intro e
    exact List.count_map_of_injective es TaskEvent.pushed (fun _ _ h => by cases h; rfl) e
  have hnodup : es.Nodup := List.Nodup.of_map Entry.id (hids ▸ List.nodup_range')
  have hid : ∀ e ∈ es, s.nextId ≤ e.id ∧ e.id < s.nextId + es.length := by
    intro e he
    have hmem : e.id ∈ List.range' s.nextId es.length := hids ▸ List.mem_map_of_mem he
    simpa using hmem
  constructor
  · intro e
    have hnone : (es.map TaskEvent.pushed).countP (removes e) = 0 := by
      simp [List.countP_eq_zero, removes]
    rw [List.count_append, List.countP_append, hcount, hnone, hfibers, List.count_append,
      h.queued e]
    omega
  · intro e he
    have hout : e ∉ es := fun hmem => by
      have := hid e hmem
      omega
    rw [List.count_append, hcount, List.count_eq_zero.mpr hout, h.fresh e (by omega)]
  · intro e
    rw [List.count_append, hcount]
    by_cases hmem : e ∈ es
    · rw [h.fresh e (hid e hmem).1, List.count_eq_one_of_mem hnodup hmem]
    · rw [List.count_eq_zero.mpr hmem]
      exact h.once e
  · intro w e
    have hnone : ∀ ev : TaskEvent, (∀ x, ev ≠ .pushed x) →
        (es.map TaskEvent.pushed).count ev = 0 := by
      intro ev hev
      rw [List.count_eq_zero, List.mem_map]
      rintro ⟨x, -, rfl⟩
      exact hev x rfl
    simp only [List.count_append, hheld, h.taken w e]
    rw [hnone _ (by simp), hnone _ (by simp), hnone _ (by simp), hnone _ (by simp)]
    rfl
  · intro w e hmem
    exact h.bound w e (by simpa using hmem)
  · intro w e st hmem
    exact h.finished w e st (by simpa using hmem)

/-- An entry moves from the queue into the hands of a worker. -/
theorem Conserved.remove {e : Entry} {pre post : List Entry} (h : Conserved log s)
    (hfibers : s.fibers = pre ++ e :: post) (hfibers' : t.fibers = pre ++ post)
    (hnext : t.nextId = s.nextId) (he : s.Allowed w e) (hw : s.held w = none)
    (hheld : t.held = Function.update s.held w (some e)) :
    Conserved (log ++ [.removed w e]) t := by
  constructor
  · intro x
    have hqueued := h.queued x
    rw [hfibers] at hqueued
    simp only [hfibers', List.count_append, List.countP_append, List.count_cons, List.count_nil,
      List.countP_cons, List.countP_nil, removes, decide_eq_true_eq] at hqueued ⊢
    by_cases hx : e = x
    · simp only [hx, beq_self_eq_true, if_true] at hqueued ⊢
      simp
      omega
    · simp only [hx, if_false, beq_iff_eq] at hqueued ⊢
      simp
      omega
  · intro x hx
    simpa [List.count_append] using h.fresh x (hnext ▸ hx)
  · intro x
    simpa [List.count_append] using h.once x
  · intro v x
    have htaken := h.taken v x
    simp only [List.count_append, List.count_singleton, hheld, htaken]
    by_cases hv : v = w
    · subst hv
      by_cases hx : e = x
      · subst hx
        simp [hw]
        omega
      · simp [hw, hx]
    · simp [hv, Ne.symm hv]
  · intro v x hmem
    rcases List.mem_append.mp hmem with hmem | hmem
    · exact h.bound v x hmem
    · cases List.mem_singleton.mp hmem
      exact thread_of_allowed he
  · intro v x st hmem
    exact h.finished v x st (by simpa using hmem)

/-- A worker deals with the entry it has taken. -/
theorem Conserved.deal {e : Entry} {ev : TaskEvent} (h : Conserved log s)
    (hev : ev = .executed w e ∨ ev = .dropped w e .term ∨ ev = .dropped w e .except)
    (hfibers : t.fibers = s.fibers) (hnext : t.nextId = s.nextId) (hw : s.held w = some e)
    (hheld : t.held = Function.update s.held w none) : Conserved (log ++ [ev]) t := by
  have hother : (∀ x, ev ≠ .pushed x) ∧ (∀ v x, ev ≠ .removed v x) ∧ ∀ x, removes x ev = false := by
    rcases hev with rfl | rfl | rfl <;> simp [removes]
  obtain ⟨hpushed, hremoved, hremoves⟩ := hother
  constructor
  · intro x
    simpa [List.count_append, List.count_singleton, hpushed, hremoves, hfibers] using h.queued x
  · intro x hx
    simpa [List.count_append, List.count_singleton, hpushed] using h.fresh x (hnext ▸ hx)
  · intro x
    simpa [List.count_append, List.count_singleton, hpushed] using h.once x
  · intro v x
    have htaken := h.taken v x
    simp only [List.count_append, List.count_singleton, hheld, htaken]
    by_cases hv : v = w
    · subst hv
      by_cases hx : e = x
      · subst hx
        rcases hev with rfl | rfl | rfl <;> simp [hw] <;> omega
      · rcases hev with rfl | rfl | rfl <;> simp [hw, hx]
    · rcases hev with rfl | rfl | rfl <;> simp [hv, Ne.symm hv]
  · intro v x hmem
    exact h.bound v x (by simpa [Ne.symm (hremoved v x)] using hmem)
  · intro v x st hmem
    rcases List.mem_append.mp hmem with hmem | hmem
    · exact h.finished v x st hmem
    · have heq := List.mem_singleton.mp hmem
      rcases hev with rfl | rfl | rfl
      · cases heq
      · cases heq
        exact .inl rfl
      · cases heq
        exact .inr rfl

/-- **Step lemma.**  Every step keeps the account. -/
theorem Conserved.step {op : Op} {es : List TaskEvent} (h : Conserved log s)
    (hstep : step s op = some (es, t)) : Conserved (log ++ es) t := by
  cases step_tasks hstep with
  | push es hfibers hnext hids hheld => exact h.push hfibers hnext hids hheld
  | remove w e pre post hfibers hfibers' hnext hpre he hw hheld =>
      exact h.remove hfibers hfibers' hnext he hw hheld
  | execute w e hfibers hnext hw hheld => exact h.deal (.inl rfl) hfibers hnext hw hheld
  | drop w f e st hfibers hnext htask hst hfinished hw hheld =>
      refine h.deal (.inr ?_) hfibers hnext hw hheld
      rcases hfinished with rfl | rfl
      · exact .inl rfl
      · exact .inr rfl

/-- A worker takes the earliest entry that it may run, and nothing only when
there is none. -/
def TakesEarliest (s : Workers) (op : Op) : Prop :=
  ∀ es t, step s op = some (es, t) →
    (∀ w e, .removed w e ∈ es → ∃ pre post, s.fibers = pre ++ e :: post ∧
      t.fibers = pre ++ post ∧ (∀ x ∈ pre, ¬ s.Allowed w x) ∧ s.Allowed w e) ∧
    ∀ w, op = .worker w .dequeue → es = [] → ∀ x ∈ s.fibers, ¬ s.Allowed w x

/-- **Every step** takes the earliest entry allowed, and a search takes nothing only if
no entry is. -/
theorem takesEarliest (s : Workers) (op : Op) : s.TakesEarliest op := by
  intro es t hstep
  constructor
  · intro w e hmem
    cases step_tasks hstep with
    | push es => simp at hmem
    | remove v x pre post hfibers hfibers' hnext hpre hx hv hheld =>
        cases List.mem_singleton.mp hmem
        exact ⟨pre, post, hfibers, hfibers', hpre, hx⟩
    | execute v x => simp at hmem
    | drop v f x st => simp at hmem
  · rintro w rfl rfl
    obtain ⟨-, hact⟩ := Option.ite_none_right_eq_some.mp hstep
    cases hp : (s.workers w).phase with
    | polling =>
        rw [hp] at hact
        cases hsearch : (s.search w s.fibers).1 with
        | none => exact (search_none hsearch).2.1
        | some e => simp [act, dequeue, hsearch] at hact
    | _ => simp [act, hp] at hact

/-- The fiber that a worker is about to swap in is that of its entry, or the
one made for its callback. -/
def Enters (worker : RunWorker) : Prop :=
  ∀ e f isCb, worker.phase = .entering e f isCb →
    if isCb then (∃ c, e.task = .cb c) ∧ worker.cbFiber = some f else e.task = .fiber f

/-- The search hands over the fiber of the entry, or makes one for the callback. -/
theorem dispatch_enters {fresh : Nat} {taken : Option Entry} {es : List TaskEvent}
    (h : s.dispatch w fresh taken = some (es, t)) : Enters (t.workers w) := by
  revert h
  fun_cases dispatch with
  | case3 e f htask =>
      rintro ⟨⟩ e' f' isCb hq
      simp only [setPhase, setWorker, Function.update_self, RunPhase.entering.injEq] at hq ⊢
      obtain ⟨rfl, rfl, rfl⟩ := hq
      simpa using htask
  | case4 e c htask f hcb hstate =>
      rintro ⟨⟩ e' f' isCb hq
      simp only [setPhase, setWorker, setState, Function.update_self,
        RunPhase.entering.injEq] at hq ⊢
      obtain ⟨rfl, rfl, rfl⟩ := hq
      simpa using ⟨⟨c, htask⟩, hcb⟩
  | case6 e c htask hcb hfree =>
      rintro ⟨⟩ e' f' isCb hq
      simp only [setWorker, setState, Function.update_self, RunPhase.entering.injEq] at hq ⊢
      obtain ⟨rfl, rfl, rfl⟩ := hq
      simpa using ⟨c, htask⟩
  | case5 =>
      intro h
      cases h
  | case7 =>
      intro h
      cases h
  | _ =>
      rintro ⟨⟩ e' f' isCb hq
      simp [setPhase, setWorker] at hq

/-- No other step of a worker leads to a `swapIn`. -/
theorem act_enters {a : Act} {p : RunPhase} {es : List TaskEvent} (hp : (s.workers w).phase = p)
    (h : s.act w a p = some (es, t)) : Enters (t.workers w) := by
  revert h
  fun_cases act with
  | case2 =>
      intro h e f isCb hq
      cases hsearch : (s.search w s.fibers).1 with
      | none =>
          simp only [dequeue, hsearch] at h
          cases h
          simp [setPhase, setWorker] at hq
      | some e =>
          simp only [dequeue, hsearch] at h
          cases h
          simp [setPhase, setWorker] at hq
  | case5 => exact dispatch_enters
  | case8 how f isCb =>
      intro h
      obtain ⟨t', hyield, ⟨⟩⟩ := Option.map_eq_some_iff.mp h
      intro e' f' isCb' hq
      rw [yield_phase hyield] at hq
      cases hq
  | case11 f isCb =>
      rintro ⟨⟩ e' f' isCb' hq
      rw [settle_phase] at hq
      split at hq <;> cases hq
  | case12 f isCb =>
      rintro h e' f' isCb' hq
      have hphase := requeue_phase (s := s) (w := w) f isCb
      rw [Option.some.inj h, hq] at hphase
      split at hphase <;> cases hphase
  | case13 =>
      rintro ⟨⟩ e' f' isCb hq
      simp only [setPhase, setWorker, Function.update_self] at hq
      split at hq <;> cases hq
  | case17 blocks =>
      rintro ⟨⟩ e' f' isCb hq
      simp only [setPhase, setWorker, Function.update_self] at hq
      split at hq <;> cases hq
  | case6 =>
      intro h
      cases h
  | case16 =>
      intro h
      cases h
  | case21 =>
      intro h
      cases h
  | _ =>
      rintro ⟨⟩ e' f' isCb hq
      simp [setPhase, setWorker, setState, hp] at hq

/-- **Step lemma**: a step of one worker leaves the fibers of the others alone. -/
theorem step_enters (s : Workers) (op : Op) (es : List TaskEvent) (t : Workers)
    (h : ∀ w, Enters (s.workers w)) (hstep : step s op = some (es, t)) :
    ∀ w, Enters (t.workers w) := by
  rcases step_cases hstep with hout | ⟨w, a, -, -, hact⟩
  · rw [hout.workers]
    exact h
  · obtain ⟨worker, hcounted⟩ := act_counted rfl hact
    intro v
    by_cases hv : v = w
    · subst hv
      exact act_enters rfl hact
    · rw [hcounted.workers, Function.update_of_ne hv]
      exact h v

/-- **Task conservation.**  In every run: an entry is pushed at most once, and
is in the queue as often as it was pushed and not removed; a worker that has
removed an entry still holds it, or has executed it once, or has dropped it
with its fiber in state `TERM` or `EXCEPT`; what it swaps in is the fiber of
the entry or one made for its callback; it removes only entries bound to no
worker or to itself, and always the earliest that it may run; and
`m_activeThreadCount` is the number of workers between a removal and the
matching decrement. -/
theorem conservation (n : Nat) (ops : List Op) (os : List (List TaskEvent)) (s : Workers)
    (hrun : Machine.run step (new n) ops = some (os, s)) :
    (∀ e, os.flatten.count (.pushed e) ≤ 1 ∧
      os.flatten.count (.pushed e) = s.fibers.count e + os.flatten.countP (removes e)) ∧
    (∀ w e, os.flatten.count (.removed w e) =
      (if s.held w = some e then 1 else 0) + os.flatten.count (.executed w e) +
        (os.flatten.count (.dropped w e .term) + os.flatten.count (.dropped w e .except))) ∧
    (∀ w e st, .dropped w e st ∈ os.flatten → st = .term ∨ st = .except) ∧
    (∀ w, Enters (s.workers w)) ∧
    (∀ w e, .removed w e ∈ os.flatten → e.thread = none ∨ e.thread = some w) ∧
    Machine.Meets step TakesEarliest (new n) ops ∧
    s.activeThreadCount = census n (fun x => x.phase.active) s.workers ∧
    ∀ w < n, (s.workers w).phase.active = true → 0 < s.activeThreadCount := by
  have h : Conserved os.flatten s := by
    have hstep : ∀ log s op es t, Conserved (List.flatten log) s → step s op = some (es, t) →
        Conserved (List.flatten (log ++ [es])) t := by
      intro log s op es t hs hstep
      simpa using hs.step hstep
    have hnew : Conserved (List.flatten []) (new n) := Conserved.new n
    simpa using Machine.run_history hstep hnew hrun
  have hcounting : s.Counting := Machine.run_invariant Counting.step (Counting.new n) hrun
  have hactive : s.activeThreadCount = census n (fun x => x.phase.active) s.workers := by
    rw [hcounting.active, run_threads hrun]
  have henters : ∀ w, Enters (s.workers w) :=
    Machine.run_invariant step_enters (fun w e f isCb hq => by cases hq) hrun
  refine ⟨fun e => ⟨h.once e, h.queued e⟩, h.taken, h.finished, henters, h.bound,
    Machine.meets_of_forall takesEarliest _ _, hactive, fun w hw hphase => ?_⟩
  rw [hactive]
  exact census_pos.mpr ⟨w, hw, hphase⟩

/-- A callback, bound to the second worker, that both workers look at. -/
def boundCallback : List Op :=
  [.schedule (some ⟨.cb 5, some 1⟩), .worker 0 .start, .worker 1 .start, .worker 0 .dequeue,
    .worker 1 .dequeue, .worker 1 (.dispatch 9), .worker 1 .swapIn]

/-- The first worker passes the callback over, and the second one runs it. -/
theorem conservation_boundCallback :
    ∃ os s, Machine.run step (new 2) boundCallback = some (os, s) ∧
      s.activeThreadCount = census 2 (fun x => x.phase.active) s.workers := by
  have hrun : (Machine.run step (new 2) boundCallback).isSome := by decide
  obtain ⟨⟨os, s⟩, hs⟩ := Option.isSome_iff_exists.mp hrun
  exact ⟨os, s, hs, (conservation 2 boundCallback os s hs).2.2.2.2.2.2.1⟩

end Workers

end Mingo
