import Mingo.IoManager.Invariant

/-!
# Entries of epoll_wait that come too late

`idle` calls `epoll_wait` without any lock and locks the context of an entry
only when it comes to process it.  Between the two, other threads may register
and remove events on the same descriptor.  `Polling` keeps the entries that
have been returned and not been processed; its steps interleave the public
calls, `epoll_wait` and the processing of any entry.

`idle` filters an entry as a whole: it skips it if none of its events is
registered any more, and otherwise triggers all of them.  So processing is
safe exactly for the entries whose events are all registered or all gone
(`triggersRegistered_iff_timely`), and a run is safe exactly when all entries
it processes are such (`run_triggers_registered_iff`).
-/

namespace Mingo

/-- A manager and the entries of `epoll_wait` that wait to be processed. -/
structure Polling where
  io : IoManager
  results : List IoManager.EpollEvent

namespace Polling

open IoManager

/-- The steps of the threads and of the kernel. -/
inductive Op
  | call (c : IoManager.Call)
  | epollWait (fd : Nat) (ready : Events) (errHup : Bool)
  | process (i : Nat) (ctl : Bool)
  deriving DecidableEq, Repr

inductive Out
  | returned (ok : Bool)
  | waited
  | triggered (events : Events)
  deriving DecidableEq, Repr

/-- A fresh manager. -/
def new : Polling := ⟨IoManager.new, []⟩

/-- One step; undefined where the code runs into a fault. -/
def step : Machine.Step Polling Op Out
  | s, .call c => (s.io.call c).toOption.map fun r => (.returned r.1, { s with io := r.2 })
  | s, .epollWait fd ready errHup =>
      (s.io.epoll fd).map fun entry =>
        (.waited, { s with results := s.results ++ [⟨entry.2, ready, errHup⟩] })
  | s, .process i ctl =>
      match s.results[i]? with
      | none => none
      | some event =>
          (s.io.idleEvent event ctl).toOption.map fun r =>
            (.triggered r.1, ⟨r.2, s.results.eraseIdx i⟩)

/-- What the callers and the kernel promise: `addEvent` is not called for a
registered event, `epoll_wait` returns events that are registered at that
moment, and `idle` processes an entry that was returned. -/
def Valid (s : Polling) : Op → Prop
  | .call c => s.io.ValidCall c
  | .epollWait fd ready _ => ∃ entry ∈ s.io.epoll fd, ready.subset entry.1
  | .process i _ => i < s.results.length

instance (s : Polling) : (op : Op) → Decidable (s.Valid op)
  | .call c => inferInstanceAs (Decidable (s.io.ValidCall c))
  | .epollWait fd ready _ =>
      inferInstanceAs (Decidable (∃ entry ∈ s.io.epoll fd, ready.subset entry.1))
  | .process i _ => inferInstanceAs (Decidable (i < s.results.length))

/-- Processing an entry calls `triggerEvent` for registered events only, and
schedules and subtracts no others. -/
def TriggersRegistered (s : Polling) : Op → Prop
  | .process i ctl =>
      ∃ event ∈ s.results[i]?, ∃ c ∈ s.io.contexts[event.ptr]?, ∃ done io',
        s.io.idleEvent event ctl = .ok (done, io') ∧
        (∀ e, done.has e = true → c.events.has e = true) ∧
        io'.pendingEventCount + done.count = s.io.pendingEventCount ∧
        io'.scheduled.length = s.io.scheduled.length + done.count
  | _ => True

/-- At the moment an entry is processed, and unless its `epoll_ctl` fails,
its events are all registered or all gone. -/
def Timely (s : Polling) : Op → Prop
  | .process i ctl => ∀ event ∈ s.results[i]?, ∀ c ∈ s.io.contexts[event.ptr]?,
      ctl = true → Harmless c event
  | _ => True

instance (s : Polling) : (op : Op) → Decidable (s.Timely op)
  | .call _ => inferInstanceAs (Decidable True)
  | .epollWait _ _ _ => inferInstanceAs (Decidable True)
  | .process i ctl => inferInstanceAs (Decidable (∀ event ∈ s.results[i]?,
      ∀ c ∈ s.io.contexts[event.ptr]?, ctl = true → Harmless c event))

/-- The copies agree, and every waiting entry points to a context. -/
structure Wf (s : Polling) : Prop where
  io : s.io.Wf
  ptr : ∀ event ∈ s.results, event.ptr < s.io.contexts.length

theorem new_wf : new.Wf := ⟨IoManager.new_wf, by simp [new]⟩

/-- Triggering an event that is gone fails the assertion of `triggerEvent`. -/
theorem trigger_of_not_has {m : IoManager} {p : Nat} {c : FdContext} {e : Event}
    (hp : m.contexts[p]? = some c) (he : c.events.has e = false) :
    m.trigger p e = .error .notRegistered := by
  simp only [trigger, hp, FdContext.triggerEvent_of_not_has he]
  rfl

/-- A mask that is neither contained in another nor disjoint from it. -/
theorem overlap_cases {events real : Events} (hinter : events.inter real ≠ .none)
    (hsub : ¬ real.subset events) :
    real = ⟨true, true⟩ ∧ (events = ⟨true, false⟩ ∨ events = ⟨false, true⟩) := by
  obtain ⟨a, b⟩ := events
  obtain ⟨c, d⟩ := real
  revert a b c d
  decide

/-- **An entry with an event that is gone** and one that is not runs into the
assertion of `triggerEvent`. -/
theorem idleEvent_of_not_harmless {m : IoManager} (h : m.Wf) {event : EpollEvent} {c : FdContext}
    (hp : m.contexts[event.ptr]? = some c) (hharm : ¬ Harmless c event) :
    m.idleEvent event true = .error .notRegistered := by
  obtain ⟨hinter, hsub⟩ := not_or.mp hharm
  obtain ⟨hreal, hevents⟩ := overlap_cases hinter hsub
  have hp' : (m.epollCtl c.fd (c.events.diff (realEvents c event)) event.ptr).contexts[event.ptr]? =
      some c := hp
  have hrun : m.idleEvent event true =
      ((m.epollCtl c.fd (c.events.diff (realEvents c event)) event.ptr).triggerAll event.ptr
        (realEvents c event)) >>= fun m => pure (realEvents c event, m) := by
    simp [idleEvent, hp, hinter]
  rw [hrun, hreal]
  rw [hreal] at hp'
  rcases hevents with hevents | hevents
  · -- the reader is still registered and is woken up before the check fails
    have hc := h.getElem_coherent hp
    have hle := h.count_le hp
    have hpos : 0 < m.pendingEventCount := by
      rw [hevents] at hle
      exact hle
    obtain ⟨m', c', hread, hset, _, _, hev, _⟩ := trigger_spec hp' hc
      (show c.events.has .read = true by rw [hevents]; rfl) hpos
    have hgone : c'.events.has .write = false := by
      rw [hev, hevents]
      rfl
    have hwrite : m'.trigger event.ptr .write = .error .notRegistered :=
      trigger_of_not_has (by rw [hset]; exact getElem?_set_self hp') hgone
    simp [triggerAll, hread, hwrite, bind, Except.bind]
  · have hread : (m.epollCtl c.fd (c.events.diff ⟨true, true⟩) event.ptr).trigger event.ptr .read =
        .error .notRegistered :=
      trigger_of_not_has hp' (by rw [hevents]; rfl)
    simp [triggerAll, hread, bind, Except.bind]

/-- **When processing an entry is safe.** -/
theorem triggersRegistered_iff_timely {s : Polling} (h : s.Wf) {op : Op} (hvalid : s.Valid op) :
    s.TriggersRegistered op ↔ s.Timely op := by
  cases op with
  | call c => exact Iff.rfl
  | epollWait fd ready errHup => exact Iff.rfl
  | process i ctl =>
      have hi : i < s.results.length := hvalid
      obtain ⟨event, hevent⟩ : ∃ event, s.results[i]? = some event :=
        ⟨_, List.getElem?_eq_getElem hi⟩
      have hptr := h.ptr event (List.mem_of_getElem? hevent)
      obtain ⟨c, hc⟩ : ∃ c, s.io.contexts[event.ptr]? = some c :=
        ⟨_, List.getElem?_eq_getElem hptr⟩
      constructor
      · rintro ⟨event', hevent', c', hc', done, io', hrun, _⟩
        have htimely : ctl = true → Harmless c event := by
          rintro rfl
          by_contra hharm
          rw [hevent] at hevent'
          cases hevent'
          rw [idleEvent_of_not_harmless h.io hc hharm] at hrun
          cases hrun
        intro event'' hevent'' c'' hc''
        rw [hevent] at hevent''
        cases hevent''
        rw [hc] at hc''
        cases hc''
        exact htimely
      · intro ht
        have hharm := ht event hevent c hc
        refine ⟨event, hevent, c, hc, ?_⟩
        cases ctl with
        | true =>
            obtain ⟨done, m', hrun, _, hsub, hpend, hsched, _⟩ :=
              idleEvent_spec h.io hc (hharm rfl) true
            exact ⟨done, m', hrun, Events.subset_iff.mp hsub, hpend, hsched⟩
        | false =>
            have hrun : s.io.idleEvent event false = .ok (.none, s.io) := by
              simp [idleEvent, hc]
            have hnone : ∀ e, Events.none.has e = true → c.events.has e = true := by
              intro e he
              cases e <;> cases he
            exact ⟨.none, s.io, hrun, hnone, rfl, rfl⟩

/-- A step that meets the condition preserves the invariant. -/
theorem step_wf {s t : Polling} {op : Op} {out : Out} (h : s.Wf) (hvalid : s.Valid op)
    (htimely : s.Timely op) (hstep : step s op = some (out, t)) : t.Wf := by
  cases op with
  | call c =>
      obtain ⟨ok, m', hcall, hwf, hlen, _⟩ := call_spec h.io hvalid
      simp only [step, hcall, Except.toOption, Option.map_some, Option.some.injEq,
        Prod.mk.injEq] at hstep
      obtain ⟨_, rfl⟩ := hstep
      exact ⟨hwf, fun event hevent => Nat.lt_of_lt_of_le (h.ptr event hevent) hlen⟩
  | epollWait fd ready errHup =>
      obtain ⟨entry, hentry, heq⟩ := Option.map_eq_some_iff.mp hstep
      obtain ⟨_, rfl⟩ := Prod.mk.inj heq
      obtain ⟨c, hc, rfl⟩ := h.io.entry hentry
      refine ⟨h.io, ?_⟩
      intro event hevent
      rcases List.mem_append.mp hevent with hevent | hevent
      · exact h.ptr event hevent
      · rw [List.mem_singleton.mp hevent]
        exact (List.getElem?_eq_some_iff.mp hc).1
  | process i ctl =>
      obtain ⟨event, hevent⟩ : ∃ event, s.results[i]? = some event :=
        ⟨_, List.getElem?_eq_getElem hvalid⟩
      have hptr := h.ptr event (List.mem_of_getElem? hevent)
      obtain ⟨c, hc⟩ : ∃ c, s.io.contexts[event.ptr]? = some c :=
        ⟨_, List.getElem?_eq_getElem hptr⟩
      have hkept : ∃ done m', s.io.idleEvent event ctl = .ok (done, m') ∧ m'.Wf ∧
          m'.contexts.length = s.io.contexts.length := by
        cases ctl with
        | true =>
            obtain ⟨done, m', hrun, hwf, _, _, _, hlen, _⟩ :=
              idleEvent_spec h.io hc (htimely event hevent c hc rfl) true
            exact ⟨done, m', hrun, hwf, hlen⟩
        | false => exact ⟨.none, s.io, by simp [idleEvent, hc], h.io, rfl⟩
      obtain ⟨done, m', hrun, hwf, hlen⟩ := hkept
      simp only [step, hevent, hrun, Except.toOption, Option.map_some, Option.some.injEq,
        Prod.mk.injEq] at hstep
      obtain ⟨_, rfl⟩ := hstep
      refine ⟨hwf, ?_⟩
      intro event' hevent'
      show event'.ptr < m'.contexts.length
      rw [hlen]
      exact h.ptr event' (List.mem_of_mem_eraseIdx hevent')

/-- A step that meets the condition is defined. -/
theorem step_defined {s : Polling} {op : Op} (h : s.Wf) (hvalid : s.Valid op)
    (htimely : s.Timely op) : ∃ out t, step s op = some (out, t) ∧ t.Wf := by
  suffices hdef : ∃ out t, step s op = some (out, t) by
    obtain ⟨out, t, hstep⟩ := hdef
    exact ⟨out, t, hstep, step_wf h hvalid htimely hstep⟩
  cases op with
  | call c =>
      obtain ⟨ok, m', hcall, _⟩ := call_spec h.io hvalid
      exact ⟨_, _, by simp only [step, hcall]; rfl⟩
  | epollWait fd ready errHup =>
      obtain ⟨entry, hentry, _⟩ := hvalid
      exact ⟨_, _, by simp only [step]; rw [hentry]; rfl⟩
  | process i ctl =>
      obtain ⟨event, hevent, c, hc, done, io', hrun, _⟩ :=
        (triggersRegistered_iff_timely h hvalid).mpr htimely
      rw [Option.mem_def] at hevent
      exact ⟨_, _, by simp only [step, hevent, hrun]; rfl⟩

/-- The two conditions are met by the same runs. -/
theorem meets_triggersRegistered_iff {ops : List Op} (hvalid : Machine.Meets step Valid new ops) :
    Machine.Meets step TriggersRegistered new ops ↔ Machine.Meets step Timely new ops :=
  Machine.meets_iff_meets (fun _ _ h hv => triggersRegistered_iff_timely h hv)
    (fun _ _ _ _ h hv ht hstep => step_wf h hv ht hstep) new_wf hvalid

/-- **Late entries are harmless exactly when they are not mixed.**  In a run
of calls, waits and processing steps in any order, every call of
`triggerEvent` is for a registered event, and no event that is gone is
scheduled or subtracted, if and only if at the moment each entry is processed
its events are all registered or all gone.  Such a run never faults, and the
copies of the registered events agree in the state it reaches. -/
theorem run_triggers_registered_iff {ops : List Op} (hvalid : Machine.Meets step Valid new ops) :
    (Machine.Meets step TriggersRegistered new ops ↔ Machine.Meets step Timely new ops) ∧
    (Machine.Meets step Timely new ops →
      ∃ outs s, Machine.run step new ops = some (outs, s) ∧ s.io.Wf) := by
  refine ⟨meets_triggersRegistered_iff hvalid, ?_⟩
  intro htimely
  obtain ⟨outs, s, hrun, h⟩ := Machine.run_defined_of_meets
    (fun s op h hboth => step_defined h hboth.1 hboth.2) new_wf (hvalid.and htimely)
  exact ⟨outs, s, hrun, h.io⟩

/-- A run that meets the condition: the entry for a reader and a writer is
processed after both were removed. -/
theorem run_triggers_registered_both_gone :
    let ops : List Op := [.call (.addEvent 5 .read none 1 2 true),
      .call (.addEvent 5 .write none 1 3 true), .epollWait 5 ⟨true, true⟩ false,
      .call (.cancelAll 5 true), .process 0 true]
    Machine.Meets step Valid new ops ∧ Machine.Meets step TriggersRegistered new ops := by
  intro ops
  have hvalid : Machine.Meets step Valid new ops := by decide
  have htimely : Machine.Meets step Timely new ops := by decide
  exact ⟨hvalid, (run_triggers_registered_iff hvalid).1.mpr htimely⟩

/-- The entry for a reader and a writer is processed after the reader alone
was removed: the assertion of `triggerEvent` fails. -/
theorem not_triggers_registered_reader_gone :
    let ops : List Op := [.call (.addEvent 5 .read none 1 2 true),
      .call (.addEvent 5 .write none 1 3 true), .epollWait 5 ⟨true, true⟩ false,
      .call (.delEvent 5 .read true), .process 0 true]
    Machine.Meets step Valid new ops ∧ ¬ Machine.Meets step TriggersRegistered new ops ∧
      (Machine.run step new (ops.take 4)).map (fun r => (r.2.results,
          Fault.of (r.2.io.idleEvent ⟨5, ⟨true, true⟩, false⟩ true))) =
        some ([⟨5, ⟨true, true⟩, false⟩], some .notRegistered) := by
  intro ops
  have hvalid : Machine.Meets step Valid new ops := by decide
  refine ⟨hvalid, ?_, by decide⟩
  rw [meets_triggersRegistered_iff hvalid]
  decide

end Polling

end Mingo
