import Mathlib.Algebra.Order.BigOperators.Group.List
import Mathlib.Algebra.GroupWithZero.Nat
import Mathlib.Algebra.Order.Group.Nat
import Mingo.IoManager.Basic

/-!
# The four copies of the registered events agree

The events registered on a descriptor are recorded four times: in the mask of
its context, in the two event contexts, in `m_pendingEventCount` and in the
interest list of the kernel.  `Wf` says that the copies agree.

* `triggerEvent_spec`, `triggerAll_spec` -- triggering registered events
  empties their contexts;
* `Wf.update` -- what a change of one context owes the other copies;
* `call_spec`, `idleEvent_spec` -- every public call, and every entry of
  `epoll_wait` that `idle` may process, keeps the copies in agreement;
* `run_event_table` -- so does every run of calls and deliveries.
-/

namespace Mingo

/-! ### Masks -/

namespace Events

/-- Every bit of the first mask is in the second. -/
def subset (es fs : Events) : Prop := es.diff fs = none

instance (es fs : Events) : Decidable (es.subset fs) :=
  inferInstanceAs (Decidable (es.diff fs = none))

/-- Each event of the one is in the other. -/
theorem subset_iff {es fs : Events} :
    es.subset fs ↔ ∀ e, es.has e = true → fs.has e = true := by
  obtain ⟨a, b⟩ := es
  obtain ⟨c, d⟩ := fs
  constructor
  · intro h e
    cases e <;> revert a b c d <;> decide
  · intro h
    have hread := h .read
    have hwrite := h .write
    clear h
    revert a b c d
    decide

/-- A new event counts once. -/
theorem count_insert {es : Events} {e : Event} (h : es.has e = false) :
    (es.insert e).count = es.count + 1 := by
  obtain ⟨a, b⟩ := es
  cases e <;> revert a b <;> decide

/-- An event that is taken out no longer counts. -/
theorem count_erase {es : Events} {e : Event} (h : es.has e = true) :
    (es.erase e).count + 1 = es.count := by
  obtain ⟨a, b⟩ := es
  cases e <;> revert a b <;> decide

/-- The events that are left and those that were taken. -/
theorem count_diff {es fs : Events} (h : fs.subset es) :
    (es.diff fs).count + fs.count = es.count := by
  obtain ⟨a, b⟩ := es
  obtain ⟨c, d⟩ := fs
  revert a b c d
  decide

/-- Without themselves, none is left. -/
@[simp]
theorem diff_self (es : Events) : es.diff es = none := by
  obtain ⟨a, b⟩ := es
  revert a b
  decide

/-- Without none, all are left. -/
@[simp]
theorem diff_none (es : Events) : es.diff none = es := by
  obtain ⟨a, b⟩ := es
  revert a b
  decide

/-- The events behind an insertion. -/
theorem has_insert (es : Events) (e e' : Event) :
    (es.insert e).has e' = (decide (e' = e) || es.has e') := by
  obtain ⟨a, b⟩ := es
  cases e <;> cases e' <;> revert a b <;> decide

/-- The events behind a removal. -/
theorem has_erase (es : Events) (e e' : Event) :
    (es.erase e).has e' = (!decide (e' = e) && es.has e') := by
  obtain ⟨a, b⟩ := es
  cases e <;> cases e' <;> revert a b <;> decide

end Events

/-! ### Contexts -/

/-- Somebody waits in the context: a scheduler, and a fiber or a callback but
not both. -/
def EventContext.Full (ctx : EventContext) : Prop :=
  ctx.scheduler.isSome ∧ (ctx.fiber.isSome ↔ ctx.cb = none)

/-- An empty context is not full. -/
theorem EventContext.not_full_empty : ¬ EventContext.empty.Full := by
  simp [EventContext.Full, EventContext.empty]

/-- The context of a waiter is full. -/
theorem EventContext.waiting_full (scheduler fiber : Nat) (cb : Option Nat) :
    (EventContext.waiting scheduler fiber cb).Full := by
  cases cb <;> simp [EventContext.waiting, EventContext.Full]

namespace FdContext

/-- The contexts behind a write to one of them. -/
@[simp]
theorem getContext_setContext (c : FdContext) (ctx : EventContext) (e e' : Event) :
    (c.setContext ctx e).getContext e' = if e' = e then ctx else c.getContext e' := by
  cases e <;> cases e' <;> rfl

/-- A write to a context leaves the events. -/
@[simp]
theorem events_setContext (c : FdContext) (ctx : EventContext) (e : Event) :
    (c.setContext ctx e).events = c.events := by
  cases e <;> rfl

/-- A write to a context leaves the descriptor. -/
@[simp]
theorem fd_setContext (c : FdContext) (ctx : EventContext) (e : Event) :
    (c.setContext ctx e).fd = c.fd := by
  cases e <;> rfl

/-- A write to the events leaves the contexts. -/
@[simp]
theorem getContext_events (c : FdContext) (es : Events) (e : Event) :
    ({ c with events := es } : FdContext).getContext e = c.getContext e := by
  cases e <;> rfl

/-- The mask and the event contexts agree. -/
structure Coherent (c : FdContext) : Prop where
  full : ∀ e, c.events.has e = true → (c.getContext e).Full
  empty : ∀ e, c.events.has e = false → c.getContext e = .empty

/-- A new entry waits for nothing and has no context filled. -/
theorem new_coherent (fd : Nat) : (FdContext.new fd).Coherent := by
  constructor
  · intro e h
    cases e <;> cases h
  · intro e _
    cases e <;> rfl

/-- Setting a bit together with its event context. -/
theorem Coherent.insert {c : FdContext} (h : c.Coherent) {e : Event} {ctx : EventContext}
    (hctx : ctx.Full) :
    (({ c with events := c.events.insert e } : FdContext).setContext ctx e).Coherent := by
  constructor
  · intro e' he'
    by_cases heq : e' = e
    · simpa [heq] using hctx
    · simp only [events_setContext, Events.has_insert, heq, decide_false, Bool.false_or] at he'
      simpa [heq] using h.full e' he'
  · intro e' he'
    simp only [events_setContext, Events.has_insert, Bool.or_eq_false_iff,
      decide_eq_false_iff_not] at he'
    simpa [he'.1] using h.empty e' he'.2

/-- Clearing a bit together with its event context. -/
theorem Coherent.erase {c : FdContext} (h : c.Coherent) (e : Event) :
    (({ c with events := c.events.erase e } : FdContext).setContext .empty e).Coherent := by
  constructor
  · intro e' he'
    simp only [events_setContext, Events.has_erase, Bool.and_eq_true, Bool.not_eq_true',
      decide_eq_false_iff_not] at he'
    simpa [he'.1] using h.full e' he'.2
  · intro e' he'
    by_cases heq : e' = e
    · simp [heq]
    · simp only [events_setContext, Events.has_erase, heq, decide_false, Bool.not_false,
        Bool.true_and] at he'
      simpa [heq] using h.empty e' he'

/-- **Triggering a registered event** hands over exactly one task and clears
the bit and the event context. -/
theorem triggerEvent_spec {c : FdContext} (h : c.Coherent) {e : Event}
    (he : c.events.has e = true) :
    ∃ task, c.triggerEvent e = .ok (some task,
      ({ c with events := c.events.erase e } : FdContext).setContext .empty e) := by
  obtain ⟨hsched, hone⟩ := h.full e he
  obtain ⟨scheduler, hscheduler⟩ := Option.isSome_iff_exists.mp hsched
  cases hcb : (c.getContext e).cb with
  | some cb =>
      have hfiber : (c.getContext e).fiber = none := by
        cases hf : (c.getContext e).fiber with
        | none => rfl
        | some f => simp [hf, hcb] at hone
      refine ⟨(scheduler, .cb cb), ?_⟩
      simp [triggerEvent, he, hscheduler, hcb, hfiber, EventContext.empty]
  | none =>
      obtain ⟨f, hf⟩ := Option.isSome_iff_exists.mp (hone.mpr hcb)
      refine ⟨(scheduler, .fiber f), ?_⟩
      simp [triggerEvent, he, hscheduler, hcb, hf, EventContext.empty]

/-- Triggering an event that is not registered fails the assertion. -/
theorem triggerEvent_of_not_has {c : FdContext} {e : Event} (he : c.events.has e = false) :
    c.triggerEvent e = .error .notRegistered := by
  simp [triggerEvent, he]

/-- A bit is set exactly when somebody waits in its event context. -/
theorem Coherent.has_iff {c : FdContext} (h : c.Coherent) (e : Event) :
    (c.events.has e = true ↔ (c.getContext e).Full) ∧
      (c.events.has e = false ↔ c.getContext e = .empty) := by
  cases he : c.events.has e with
  | true =>
      have hfull := h.full e he
      have hne : c.getContext e ≠ .empty := fun heq => EventContext.not_full_empty (heq ▸ hfull)
      simp [hfull, hne]
  | false =>
      have hempty := h.empty e he
      simp [hempty, EventContext.not_full_empty]

end FdContext

namespace IoManager

/-! ### Triggering through the manager -/

/-- `decrement` of a count that is not zero. -/
theorem decrement_spec {m : IoManager} (h : 0 < m.pendingEventCount) :
    m.decrement = .ok { m with pendingEventCount := m.pendingEventCount - 1 } := by
  rw [decrement, if_neg (by omega)]

/-- What triggering the events `done` of the context `p` has changed. -/
structure Triggered (m m' : IoManager) (p : Nat) (c : FdContext) (done : Events) : Prop where
  ctx : ∃ c', m'.contexts = m.contexts.set p c' ∧ c'.Coherent ∧ c'.fd = c.fd ∧
    c'.events = c.events.diff done
  table : m'.fdContexts = m.fdContexts
  pending : m'.pendingEventCount + done.count = m.pendingEventCount
  epoll : m'.epoll = m.epoll
  scheduled : m'.scheduled.length = m.scheduled.length + done.count

/-- A slot behind a write to it. -/
theorem getElem?_set_self {m : IoManager} {p : Nat} {c c' : FdContext}
    (hp : m.contexts[p]? = some c) : (m.contexts.set p c')[p]? = some c' := by
  obtain ⟨hlt, _⟩ := List.getElem?_eq_some_iff.mp hp
  simp [hlt]

/-- **`triggerEvent`** on an event that is waited for: it empties the context, erases the
event and counts one less. -/
theorem trigger_spec {m : IoManager} {p : Nat} {c : FdContext} {e : Event}
    (hp : m.contexts[p]? = some c) (hc : c.Coherent) (he : c.events.has e = true)
    (hpending : 0 < m.pendingEventCount) :
    ∃ m' c', m.trigger p e = .ok m' ∧ m'.contexts = m.contexts.set p c' ∧ c'.Coherent ∧
      c'.fd = c.fd ∧ c'.events = c.events.erase e ∧ m'.fdContexts = m.fdContexts ∧
      m'.pendingEventCount + 1 = m.pendingEventCount ∧ m'.epoll = m.epoll ∧
      m'.scheduled.length = m.scheduled.length + 1 := by
  obtain ⟨task, htrigger⟩ := FdContext.triggerEvent_spec hc he
  have hrun : m.trigger p e =
      (({ m with scheduled := m.scheduled ++ [task] } : IoManager).setContext p
        (({ c with events := c.events.erase e } : FdContext).setContext .empty e)).decrement := by
    simp only [trigger, hp, htrigger]
    rfl
  refine ⟨_, _, hrun.trans (decrement_spec hpending), rfl, hc.erase e, by simp, by simp, rfl, ?_,
    rfl, by simp [setContext]⟩
  dsimp only [setContext]
  omega

/-- **Triggering registered events** succeeds as long as the count covers
them. -/
theorem triggerAll_spec {m : IoManager} {p : Nat} {c : FdContext} {events : Events}
    (hp : m.contexts[p]? = some c) (hc : c.Coherent) (hsub : events.subset c.events)
    (hpending : events.count ≤ m.pendingEventCount) :
    ∃ m', m.triggerAll p events = .ok m' ∧ Triggered m m' p c events := by
  have hhas := Events.subset_iff.mp hsub
  obtain ⟨er, ew⟩ := events
  cases er with
  | false =>
      cases ew with
      | false =>
          refine ⟨m, rfl, ⟨c, ?_, hc, rfl, ?_⟩, rfl, rfl, rfl, rfl⟩
          · obtain ⟨hlt, heq⟩ := List.getElem?_eq_some_iff.mp hp
            rw [← heq, List.set_getElem_self]
          · exact (Events.diff_none c.events).symm
      | true =>
          obtain ⟨m', c', hrun, hset, hc', hfd, hev, htab, hcount, hep, hsch⟩ :=
            trigger_spec hp hc (hhas .write rfl) (by simp [Events.count] at hpending; omega)
          refine ⟨m', hrun, ⟨c', hset, hc', hfd, ?_⟩, htab, hcount, hep, hsch⟩
          rw [hev]
          simp [Events.erase, Events.diff]
  | true =>
      obtain ⟨m', c', hrun, hset, hc', hfd, hev, htab, hcount, hep, hsch⟩ :=
        trigger_spec hp hc (hhas .read rfl) (by simp [Events.count] at hpending; omega)
      cases ew with
      | false =>
          refine ⟨m', ?_, ⟨c', hset, hc', hfd, ?_⟩, htab, hcount, hep, hsch⟩
          · simp [triggerAll, hrun, bind, Except.bind]
          · rw [hev]
            simp [Events.erase, Events.diff]
      | true =>
          have hp' : m'.contexts[p]? = some c' := by
            rw [hset]
            exact getElem?_set_self hp
          have hw : c'.events.has .write = true := by
            rw [hev, Events.has_erase]
            simpa using hhas .write rfl
          obtain ⟨m'', c'', hrun', hset', hc'', hfd', hev', htab', hcount', hep', hsch'⟩ :=
            trigger_spec hp' hc' hw (by simp [Events.count] at hpending; omega)
          refine ⟨m'', ?_, ⟨c'', ?_, hc'', hfd'.trans hfd, ?_⟩, htab'.trans htab, ?_,
            hep'.trans hep, ?_⟩
          · simpa [triggerAll, hrun, bind, Except.bind] using hrun'
          · rw [hset', hset, List.set_set]
          · rw [hev', hev]
            simp [Events.erase, Events.diff]
          · simp [Events.count]
            omega
          · simp [Events.count]
            omega

/-! ### The invariant -/

/-- The copies agree.  A context is the one of the descriptor that is its
index, and the table finds it there. -/
structure Wf (m : IoManager) : Prop where
  table : m.fdContexts = List.range m.contexts.length
  size : 32 ≤ m.contexts.length
  fd_eq : ∀ (p : Nat) (c : FdContext), m.contexts[p]? = some c → c.fd = p
  coherent : ∀ c ∈ m.contexts, c.Coherent
  pending : m.pendingEventCount = (m.contexts.map fun c => c.events.count).sum
  interest : ∀ fd : Nat, m.epoll fd = m.contexts[fd]?.bind fun c =>
    if c.events = .none then none else some (c.events, fd)

/-- The table is found by the descriptor, as slot `fd`. -/
theorem Wf.lookup_eq {m : IoManager} (h : m.Wf) (fd : Nat) :
    m.lookup fd = m.contexts[fd]?.map fun c => (fd, c) := by
  rw [lookup, h.table]
  by_cases hlt : fd < m.contexts.length
  · simp [hlt]
  · have hnone : m.contexts[fd]? = none := List.getElem?_eq_none (by omega)
    simp [hlt]

/-- Every slot is coherent. -/
theorem Wf.getElem_coherent {m : IoManager} (h : m.Wf) {p : Nat} {c : FdContext}
    (hp : m.contexts[p]? = some c) : c.Coherent :=
  h.coherent c (List.mem_of_getElem? hp)

/-- Replacing one summand. -/
theorem sum_map_set {α : Type} (f : α → Nat) {xs : List α} {p : Nat} {x y : α}
    (hp : xs[p]? = some x) : ((xs.set p y).map f).sum + f x = (xs.map f).sum + f y := by
  induction xs generalizing p with
  | nil => simp at hp
  | cons z xs ih =>
      cases p with
      | zero =>
          simp only [List.getElem?_cons_zero, Option.some.injEq] at hp
          subst hp
          simp only [List.set_cons_zero, List.map_cons, List.sum_cons]
          omega
      | succ p =>
          simp only [List.getElem?_cons_succ] at hp
          have hrec := ih hp
          simp only [List.set_cons_succ, List.map_cons, List.sum_cons]
          omega

/-- The count covers the events of every context. -/
theorem Wf.count_le {m : IoManager} (h : m.Wf) {p : Nat} {c : FdContext}
    (hp : m.contexts[p]? = some c) : c.events.count ≤ m.pendingEventCount := by
  rw [h.pending]
  have hmem : c.events.count ∈ m.contexts.map fun c => c.events.count :=
    List.mem_map_of_mem (List.mem_of_getElem? hp)
  exact List.le_sum_of_mem hmem

/-- **What a change of one context owes the other copies**: the count moves by
the difference of the two masks, and the kernel is told the new mask. -/
theorem Wf.update {m m' : IoManager} (h : m.Wf) {p : Nat} {c c' : FdContext}
    (hp : m.contexts[p]? = some c) (hset : m'.contexts = m.contexts.set p c')
    (hc' : c'.Coherent) (hfd : c'.fd = c.fd) (htab : m'.fdContexts = m.fdContexts)
    (hcount : m'.pendingEventCount + c.events.count = m.pendingEventCount + c'.events.count)
    (hepoll : m'.epoll = (m.epollCtl p c'.events p).epoll) : m'.Wf := by
  have hlen : m'.contexts.length = m.contexts.length := by rw [hset, List.length_set]
  constructor
  · rw [htab, hlen, h.table]
  · rw [hlen]
    exact h.size
  · intro q d hq
    rw [hset] at hq
    by_cases heq : q = p
    · subst heq
      rw [getElem?_set_self hp] at hq
      cases hq
      rw [hfd]
      exact h.fd_eq q c hp
    · rw [List.getElem?_set_ne (Ne.symm heq)] at hq
      exact h.fd_eq q d hq
  · intro d hd
    rw [hset] at hd
    rcases List.mem_or_eq_of_mem_set hd with hd | rfl
    · exact h.coherent d hd
    · exact hc'
  · have hsum := sum_map_set (fun c : FdContext => c.events.count) (y := c') hp
    have hpending := h.pending
    rw [hset]
    omega
  · intro fd
    rw [hepoll, hset]
    by_cases heq : fd = p
    · subst heq
      simp [epollCtl, getElem?_set_self hp]
    · rw [List.getElem?_set_ne (Ne.symm heq)]
      simpa [epollCtl, heq] using h.interest fd

/-- **Growing the table** adds contexts nobody waits in. -/
theorem Wf.grow {m : IoManager} (h : m.Wf) {size : Nat} (hsize : m.contexts.length ≤ size) :
    (m.contextResize size).Wf ∧ (m.contextResize size).contexts.length = size ∧
      (m.contextResize size).contexts = m.contexts ++
        (List.range' m.contexts.length (size - m.contexts.length)).map FdContext.new := by
  have htabLen : m.fdContexts.length = m.contexts.length := by rw [h.table, List.length_range]
  have hresize := contextResize_of_le (show m.fdContexts.length ≤ size by omega)
  rw [htabLen, h.table] at hresize
  have hcontexts : (m.contextResize size).contexts = m.contexts ++
      (List.range' m.contexts.length (size - m.contexts.length)).map FdContext.new := by
    rw [hresize]
  have hlen : (m.contextResize size).contexts.length = size := by
    rw [hcontexts]
    simp
    omega
  have hnew : ∀ (p : Nat) (c : FdContext), m.contexts.length ≤ p →
      (m.contextResize size).contexts[p]? = some c → c = FdContext.new p := by
    intro p c hle hp
    rw [hcontexts, List.getElem?_append_right hle, List.getElem?_map] at hp
    obtain ⟨q, hq, rfl⟩ := Option.map_eq_some_iff.mp hp
    rw [List.getElem?_range'] at hq
    · simp only [Option.some.injEq] at hq
      rw [← hq]
      congr 1
      omega
    · by_contra hge
      rw [List.getElem?_eq_none (by simpa using Nat.not_lt.mp hge)] at hq
      cases hq
  have hold : ∀ p : Nat, p < m.contexts.length →
      (m.contextResize size).contexts[p]? = m.contexts[p]? := by
    intro p hlt
    rw [hcontexts, List.getElem?_append_left hlt]
  refine ⟨⟨?_, ?_, ?_, ?_, ?_, ?_⟩, hlen, hcontexts⟩
  · rw [hlen]
    have happend := List.range'_append_1 (s := 0) (m := m.contexts.length)
      (n := size - m.contexts.length)
    rw [Nat.zero_add, Nat.add_sub_cancel' hsize] at happend
    rw [hresize, List.range_eq_range', List.range_eq_range', happend]
  · rw [hlen]
    exact Nat.le_trans h.size hsize
  · intro p c hp
    by_cases hlt : p < m.contexts.length
    · rw [hold p hlt] at hp
      exact h.fd_eq p c hp
    · rw [hnew p c (by omega) hp]
      rfl
  · intro c hc
    rw [hcontexts, List.mem_append, List.mem_map] at hc
    rcases hc with hc | ⟨fd, _, rfl⟩
    · exact h.coherent c hc
    · exact FdContext.new_coherent fd
  · rw [hcontexts, List.map_append, List.sum_append, List.map_map]
    have hzero : (List.map ((fun c : FdContext => c.events.count) ∘ FdContext.new)
        (List.range' m.contexts.length (size - m.contexts.length))).sum = 0 := by
      apply List.sum_eq_zero
      intro x hx
      obtain ⟨fd, _, rfl⟩ := List.mem_map.mp hx
      rfl
    rw [hzero, Nat.add_zero]
    exact h.pending
  · intro fd
    have hepoll : (m.contextResize size).epoll fd = m.epoll fd := rfl
    rw [hepoll, h.interest fd]
    by_cases hlt : fd < m.contexts.length
    · rw [hold fd hlt]
    · rw [List.getElem?_eq_none (by omega)]
      cases hc : (m.contextResize size).contexts[fd]? with
      | none => rfl
      | some c =>
          rw [hnew fd c (by omega) hc]
          rfl

/-- The table is well formed at the start. -/
theorem new_wf : new.Wf := by
  have hcontexts : new.contexts = (List.range 32).map FdContext.new := by
    simp [new, contextResize, List.range_eq_range']
  constructor
  · decide
  · decide
  · intro p c hp
    rw [hcontexts, List.getElem?_map] at hp
    obtain ⟨q, hq, rfl⟩ := Option.map_eq_some_iff.mp hp
    obtain ⟨_, rfl⟩ := List.getElem?_eq_some_iff.mp hq
    simp [FdContext.new]
  · intro c hc
    rw [hcontexts] at hc
    obtain ⟨fd, _, rfl⟩ := List.mem_map.mp hc
    exact FdContext.new_coherent fd
  · decide
  · intro fd
    rw [hcontexts, List.getElem?_map]
    cases (List.range 32)[fd]? with
    | none => rfl
    | some q => rfl

/-! ### The calls -/

/-- The public calls, with the outcome of their `epoll_ctl`.  `addEvent` is
called on a thread of `scheduler` that runs `fiber`. -/
inductive Call
  | addEvent (fd : Nat) (event : Event) (cb : Option Nat) (scheduler fiber : Nat) (ctl : Bool)
  | delEvent (fd : Nat) (event : Event) (ctl : Bool)
  | cancelEvent (fd : Nat) (event : Event) (ctl : Bool)
  | cancelAll (fd : Nat) (ctl : Bool)
  deriving DecidableEq, Repr

/-- One public call; the flag is `false` when it reports failure. -/
def call (m : IoManager) : Call → Except Fault (Bool × IoManager)
  | .addEvent fd event cb scheduler fiber ctl => m.addEvent fd event cb scheduler fiber ctl
  | .delEvent fd event ctl => m.delEvent fd event ctl
  | .cancelEvent fd event ctl => m.cancelEvent fd event ctl
  | .cancelAll fd ctl => m.cancelAll fd ctl

/-- `addEvent` is not called for an event that is registered already. -/
def ValidCall (m : IoManager) : Call → Prop
  | .addEvent fd event _ _ _ _ => ∀ pc ∈ m.lookup fd, pc.2.events.has event = false
  | _ => True

instance (m : IoManager) : (c : Call) → Decidable (m.ValidCall c)
  | .addEvent fd event _ _ _ _ =>
      inferInstanceAs (Decidable (∀ pc ∈ m.lookup fd, pc.2.events.has event = false))
  | .delEvent _ _ _ => inferInstanceAs (Decidable True)
  | .cancelEvent _ _ _ => inferInstanceAs (Decidable True)
  | .cancelAll _ _ => inferInstanceAs (Decidable True)

/-- Nothing has changed but that the table may have grown. -/
structure Unchanged (m m' : IoManager) : Prop where
  lookup : ∀ fd pc, m.lookup fd = some pc → m'.lookup fd = some pc
  pending : m'.pendingEventCount = m.pendingEventCount
  epoll : m'.epoll = m.epoll
  scheduled : m'.scheduled = m.scheduled

/-- What does nothing leaves the waiters unchanged. -/
theorem Unchanged.refl (m : IoManager) : Unchanged m m := ⟨fun _ _ h => h, rfl, rfl, rfl⟩

/-- What every call promises. -/
def Kept (m : IoManager) (r : Except Fault (Bool × IoManager)) : Prop :=
  ∃ ok m', r = .ok (ok, m') ∧ m'.Wf ∧ m.contexts.length ≤ m'.contexts.length ∧
    (ok = false → Unchanged m m')

/-- A call that fails at once. -/
theorem Kept.failed {m : IoManager} (h : m.Wf) : Kept m (.ok (false, m)) :=
  ⟨false, m, rfl, h, Nat.le_refl _, fun _ => Unchanged.refl m⟩

/-- Registering an event that is not waited for. -/
theorem register_spec {m : IoManager} (h : m.Wf) {fd : Nat} {c : FdContext} {event : Event}
    (hp : m.contexts[fd]? = some c) (hfree : c.events.has event = false)
    (cb : Option Nat) (scheduler fiber : Nat) (ctl : Bool) :
    Kept m (m.register fd fd event cb scheduler fiber ctl) := by
  have hc := h.getElem_coherent hp
  cases ctl with
  | false =>
      have hrun : m.register fd fd event cb scheduler fiber false = .ok (false, m) := by
        simp [register, hp, hfree]
      rw [hrun]
      exact Kept.failed h
  | true =>
      have hempty : ({ c with events := c.events.insert event } : FdContext).getContext event =
          .empty := by
        rw [FdContext.getContext_events, hc.empty event hfree]
      have hcount := Events.count_insert hfree
      have hrun : m.register fd fd event cb scheduler fiber true = .ok (true,
          { m.epollCtl fd (c.events.insert event) fd with
            pendingEventCount := m.pendingEventCount + 1
            contexts := m.contexts.set fd
              (({ c with events := c.events.insert event } : FdContext).setContext
                (.waiting scheduler fiber cb) event) }) := by
        simp [register, hp, hfree, hempty]
        rfl
      refine ⟨true, _, hrun, ?_, by simp, by simp⟩
      refine h.update hp rfl (hc.insert (EventContext.waiting_full scheduler fiber cb))
        (by simp) rfl ?_ ?_
      · simp only [FdContext.events_setContext]
        omega
      · simp only [FdContext.events_setContext]

/-- `addEvent` keeps the invariant, unless its assertion fails. -/
theorem addEvent_spec {m : IoManager} (h : m.Wf) {fd : Nat} {event : Event} (cb : Option Nat)
    (scheduler fiber : Nat) (ctl : Bool)
    (hvalid : ∀ pc ∈ m.lookup fd, pc.2.events.has event = false) :
    Kept m (m.addEvent fd event cb scheduler fiber ctl) := by
  have hlen : m.fdContexts.length = m.contexts.length := by rw [h.table, List.length_range]
  by_cases hlt : fd < m.contexts.length
  · have hp : m.contexts[fd]? = some (m.contexts.get ⟨fd, hlt⟩) := List.getElem?_eq_getElem hlt
    have hfree := hvalid (fd, m.contexts.get ⟨fd, hlt⟩) (by simp [h.lookup_eq, hp])
    have hrun : m.addEvent fd event cb scheduler fiber ctl =
        m.register fd fd event cb scheduler fiber ctl := by
      have htab : m.fdContexts[fd]? = some fd := by simp [h.table, hlt]
      have hfits : m.fdContexts.length > fd := by omega
      simp only [addEvent, if_pos hfits, htab]
    rw [hrun]
    exact register_spec h hp hfree cb scheduler fiber ctl
  · have hsize := h.size
    have hgrows : m.contexts.length ≤ grownSize fd := by
      rw [grownSize]
      omega
    obtain ⟨hgrown, hlen', hcontexts⟩ := h.grow hgrows
    have hlt' : fd < (m.contextResize (grownSize fd)).contexts.length := by
      rw [hlen', grownSize]
      omega
    have hp : (m.contextResize (grownSize fd)).contexts[fd]? = some (FdContext.new fd) := by
      rw [hcontexts, List.getElem?_append_right (by omega), List.getElem?_map,
        List.getElem?_range' (by rw [hlen'] at hlt'; omega)]
      simp only [Option.map_some, Option.some.injEq]
      congr 1
      omega
    have hrun : m.addEvent fd event cb scheduler fiber ctl =
        (m.contextResize (grownSize fd)).register fd fd event cb scheduler fiber ctl := by
      have htab : (m.contextResize (grownSize fd)).fdContexts[fd]? = some fd := by
        simp [hgrown.table, hlt']
      have hfull : ¬ m.fdContexts.length > fd := by omega
      simp only [addEvent, if_neg hfull, htab]
    rw [hrun]
    have hfree : (FdContext.new fd).events.has event = false := by cases event <;> rfl
    obtain ⟨ok, m', hreg, hwf', hmono, hsame⟩ :=
      register_spec hgrown hp hfree cb scheduler fiber ctl
    refine ⟨ok, m', hreg, hwf', by omega, fun hfail => ?_⟩
    obtain ⟨hlook, hpend, hep, hsched⟩ := hsame hfail
    refine ⟨?_, hpend, hep, hsched⟩
    intro fd' pc hpc
    apply hlook
    rw [hgrown.lookup_eq]
    rw [h.lookup_eq] at hpc
    obtain ⟨c, hc, rfl⟩ := Option.map_eq_some_iff.mp hpc
    obtain ⟨hlt'', _⟩ := List.getElem?_eq_some_iff.mp hc
    rw [hcontexts, List.getElem?_append_left hlt'', hc]
    rfl

/-- `delEvent` keeps the invariant. -/
theorem delEvent_spec {m : IoManager} (h : m.Wf) (fd : Nat) (event : Event) (ctl : Bool) :
    Kept m (m.delEvent fd event ctl) := by
  unfold delEvent
  rw [h.lookup_eq]
  cases hp : m.contexts[fd]? with
  | none => exact Kept.failed h
  | some c =>
      have hc := h.getElem_coherent hp
      have hle := h.count_le hp
      cases hhas : c.events.has event with
      | false => simpa [hhas] using Kept.failed h
      | true =>
          cases ctl with
          | false => simpa [hhas] using Kept.failed h
          | true =>
              have hcount := Events.count_erase hhas
              have hdec : (m.epollCtl fd (c.events.erase event) fd).decrement = .ok
                  { m.epollCtl fd (c.events.erase event) fd with
                    pendingEventCount := m.pendingEventCount - 1 } :=
                decrement_spec (by show 0 < m.pendingEventCount; omega)
              refine ⟨true, _, by simp [hhas, hdec, bind, Except.bind]; rfl, ?_,
                by simp [setContext, epollCtl], by simp⟩
              refine h.update hp rfl (hc.erase event) (FdContext.fd_setContext _ _ _) rfl ?_ ?_
              · simp only [FdContext.resetContext, FdContext.events_setContext, setContext]
                omega
              · simp only [FdContext.resetContext, FdContext.events_setContext, setContext]

/-- The state after the kernel was told the mask that is left and the other
events were triggered. -/
theorem Wf.triggered {m m' : IoManager} (h : m.Wf) {fd : Nat} {c : FdContext} {done : Events}
    (hp : m.contexts[fd]? = some c) (hsub : done.subset c.events)
    (ht : Triggered (m.epollCtl fd (c.events.diff done) fd) m' fd c done) : m'.Wf := by
  obtain ⟨⟨c', hset, hc', hfd, hev⟩, htab, hpend, hep, _⟩ := ht
  have hcount := Events.count_diff hsub
  have hpend' : m'.pendingEventCount + done.count = m.pendingEventCount := hpend
  refine h.update hp hset hc' hfd htab ?_ ?_
  · rw [hev]
    omega
  · rw [hep, hev]

/-- `cancelEvent` keeps the invariant. -/
theorem cancelEvent_spec {m : IoManager} (h : m.Wf) (fd : Nat) (event : Event) (ctl : Bool) :
    Kept m (m.cancelEvent fd event ctl) := by
  unfold cancelEvent
  rw [h.lookup_eq]
  cases hp : m.contexts[fd]? with
  | none => exact Kept.failed h
  | some c =>
      have hc := h.getElem_coherent hp
      have hle := h.count_le hp
      cases hhas : c.events.has event with
      | false => simpa [hhas] using Kept.failed h
      | true =>
          cases ctl with
          | false => simpa [hhas] using Kept.failed h
          | true =>
              have hcount := Events.count_erase hhas
              obtain ⟨m', c', hrun, hset, hc', hfd, hev, htab, hpend, hep, _⟩ :=
                trigger_spec (m := m.epollCtl fd (c.events.erase event) fd) hp hc hhas
                  (by show 0 < m.pendingEventCount; omega)
              have hpend' : m'.pendingEventCount + 1 = m.pendingEventCount := hpend
              refine ⟨true, m', by simp [hhas, hrun, bind, Except.bind]; rfl, ?_,
                by simp [hset, epollCtl], by simp⟩
              refine h.update hp hset hc' hfd htab ?_ ?_
              · rw [hev]
                omega
              · rw [hep, hev]

/-- `cancelAll` keeps the invariant. -/
theorem cancelAll_spec {m : IoManager} (h : m.Wf) (fd : Nat) (ctl : Bool) :
    Kept m (m.cancelAll fd ctl) := by
  unfold cancelAll
  rw [h.lookup_eq]
  cases hp : m.contexts[fd]? with
  | none => exact Kept.failed h
  | some c =>
      have hc := h.getElem_coherent hp
      have hsub : c.events.subset c.events := Events.diff_self c.events
      by_cases hnone : c.events = .none
      · simpa [hnone] using Kept.failed h
      · cases ctl with
        | false => simpa [hnone] using Kept.failed h
        | true =>
            obtain ⟨m', hrun, ht⟩ := triggerAll_spec (m := m.epollCtl fd .none fd) hp hc hsub
              (h.count_le hp)
            obtain ⟨c', hset, _, _, hev⟩ := ht.ctx
            have hleft : m'.contexts[fd]?.map FdContext.events = some .none := by
              rw [hset, getElem?_set_self (m := m.epollCtl fd .none fd) hp, Option.map_some, hev,
                Events.diff_self]
            refine ⟨true, m', by simp [hnone, hrun, hleft, bind, Except.bind]; rfl, ?_,
              by simp [hset, epollCtl], by simp⟩
            rw [← Events.diff_self c.events] at ht
            exact h.triggered hp hsub ht

/-- **Every public call** keeps the copies in agreement, and one that reports
failure changes nothing. -/
theorem call_spec {m : IoManager} (h : m.Wf) {c : Call} (hvalid : m.ValidCall c) :
    Kept m (m.call c) := by
  cases c with
  | addEvent fd event cb scheduler fiber ctl =>
      exact addEvent_spec h cb scheduler fiber ctl hvalid
  | delEvent fd event ctl => exact delEvent_spec h fd event ctl
  | cancelEvent fd event ctl => exact cancelEvent_spec h fd event ctl
  | cancelAll fd ctl => exact cancelAll_spec h fd ctl

/-- The entry can be processed: the events it reports are all registered or
none of them is. -/
def Harmless (c : FdContext) (event : EpollEvent) : Prop :=
  c.events.inter (realEvents c event) = .none ∨ (realEvents c event).subset c.events

instance (c : FdContext) (event : EpollEvent) : Decidable (Harmless c event) :=
  inferInstanceAs (Decidable (_ ∨ _))

/-- **Processing an entry of `epoll_wait`** whose events are all registered,
or none of them. -/
theorem idleEvent_spec {m : IoManager} (h : m.Wf) {event : EpollEvent} {c : FdContext}
    (hp : m.contexts[event.ptr]? = some c) (hharm : Harmless c event) (ctl : Bool) :
    ∃ done m', m.idleEvent event ctl = .ok (done, m') ∧ m'.Wf ∧ done.subset c.events ∧
      m'.pendingEventCount + done.count = m.pendingEventCount ∧
      m'.scheduled.length = m.scheduled.length + done.count ∧
      m'.contexts.length = m.contexts.length ∧ (ctl = false → m' = m) := by
  have hnothing : ∃ done m', (.ok (.none, m) : Except Fault (Events × IoManager)) =
      .ok (done, m') ∧ m'.Wf ∧ done.subset c.events ∧
      m'.pendingEventCount + done.count = m.pendingEventCount ∧
      m'.scheduled.length = m.scheduled.length + done.count ∧
      m'.contexts.length = m.contexts.length ∧ (ctl = false → m' = m) :=
    ⟨.none, m, rfl, h, rfl, rfl, rfl, rfl, fun _ => rfl⟩
  by_cases hnone : c.events.inter (realEvents c event) = .none
  · simpa [idleEvent, hp, hnone] using hnothing
  · cases ctl with
    | false => simpa [idleEvent, hp, hnone] using hnothing
    | true =>
        have hsub := hharm.resolve_left hnone
        have hc := h.getElem_coherent hp
        have hfd := h.fd_eq event.ptr c hp
        have hle := h.count_le hp
        have hcount := Events.count_diff hsub
        obtain ⟨m', hrun, ht⟩ := triggerAll_spec
          (m := m.epollCtl c.fd (c.events.diff (realEvents c event)) event.ptr) hp hc hsub
          (by show (realEvents c event).count ≤ m.pendingEventCount; omega)
        have hlen : m'.contexts.length = m.contexts.length := by
          obtain ⟨c', hset, _⟩ := ht.ctx
          rw [hset, List.length_set]
          rfl
        refine ⟨realEvents c event, m', ?_, ?_, hsub, ht.pending, ht.scheduled, hlen, by simp⟩
        · simp [idleEvent, hp, hnone, hrun, bind, Except.bind]
          rfl
        · rw [hfd] at ht
          exact h.triggered hp hsub ht

/-! ### Runs -/

/-- The steps of a run: a public call, or the delivery of an entry that
`epoll_wait` returns for a descriptor. -/
inductive Op
  | call (c : Call)
  | deliver (fd : Nat) (ready : Events) (errHup : Bool) (ctl : Bool)
  deriving DecidableEq, Repr

/-- What a step reports: the flag of a call, or the events `idle` triggered. -/
inductive Out
  | returned (ok : Bool)
  | triggered (events : Events)
  deriving DecidableEq, Repr

/-- The step reports failure: a call by its flag, `idle` by a failed
`epoll_ctl`. -/
def Failed : Op → Out → Prop
  | .call _, out => out = .returned false
  | .deliver _ _ _ ctl, _ => ctl = false

/-- The kernel delivers events it is asked for, with the context pointer it
was given; `EPOLLERR` and `EPOLLHUP` come unasked. -/
def Valid (m : IoManager) : Op → Prop
  | .call c => m.ValidCall c
  | .deliver fd ready _ _ => ∃ entry ∈ m.epoll fd, ready.subset entry.1

instance (m : IoManager) : (op : Op) → Decidable (m.Valid op)
  | .call c => inferInstanceAs (Decidable (m.ValidCall c))
  | .deliver fd ready _ _ =>
      inferInstanceAs (Decidable (∃ entry ∈ m.epoll fd, ready.subset entry.1))

/-- One step; undefined where the code runs into a fault. -/
def step : Machine.Step IoManager Op Out
  | m, .call c => (m.call c).toOption.map fun r => (.returned r.1, r.2)
  | m, .deliver fd ready errHup ctl =>
      match m.epoll fd with
      | none => none
      | some (_, ptr) =>
          (m.idleEvent ⟨ptr, ready, errHup⟩ ctl).toOption.map fun r => (.triggered r.1, r.2)

/-- An entry of the interest list is the mask and the pointer of the context
of its descriptor. -/
theorem Wf.entry {m : IoManager} (h : m.Wf) {fd : Nat} {entry : Events × Nat}
    (hentry : m.epoll fd = some entry) :
    ∃ c, m.contexts[fd]? = some c ∧ entry = (c.events, fd) := by
  rw [h.interest] at hentry
  obtain ⟨c, hc, hif⟩ := Option.bind_eq_some_iff.mp hentry
  refine ⟨c, hc, ?_⟩
  split at hif
  · cases hif
  · exact (Option.some.inj hif).symm

/-- Events that are waited for add nothing to those that are. -/
theorem union_of_subset {ready events : Events} (h : ready.subset events) :
    ready.union events = events := by
  obtain ⟨a, b⟩ := ready
  obtain ⟨c, d⟩ := events
  revert a b c d
  decide

/-- The events of an entry that are registered when it is processed. -/
theorem realEvents_subset {c : FdContext} {event : EpollEvent}
    (h : event.ready.subset c.events) : (realEvents c event).subset c.events := by
  unfold realEvents
  split
  · rw [union_of_subset h]
    exact Events.diff_self c.events
  · exact h

/-- Events that are registered when they are processed do no harm. -/
theorem harmless_of_subset {c : FdContext} {event : EpollEvent}
    (h : event.ready.subset c.events) : Harmless c event :=
  Or.inr (realEvents_subset h)

/-- **Every step** is defined, keeps the copies in agreement, and changes
nothing when it reports failure. -/
theorem step_wf {m : IoManager} (h : m.Wf) {op : Op} (hvalid : m.Valid op) :
    ∃ out m', step m op = some (out, m') ∧ m'.Wf ∧ (Failed op out → Unchanged m m') := by
  cases op with
  | call c =>
      obtain ⟨ok, m', hcall, hwf, _, hsame⟩ := call_spec h hvalid
      refine ⟨.returned ok, m', by simp [step, hcall, Except.toOption], hwf, ?_⟩
      intro hfail
      exact hsame (by simpa [Failed] using hfail)
  | deliver fd ready errHup ctl =>
      obtain ⟨entry, hentry, hsub⟩ := hvalid
      obtain ⟨c, hc, rfl⟩ := h.entry hentry
      have hptr : m.contexts[(⟨fd, ready, errHup⟩ : EpollEvent).ptr]? = some c := hc
      obtain ⟨done, m', hrun, hwf, _, _, _, _, hsame⟩ :=
        idleEvent_spec h hptr (harmless_of_subset hsub) ctl
      have hentry' : m.epoll fd = some (c.events, fd) := hentry
      refine ⟨.triggered done, m', by simp [step, hentry', hrun, Except.toOption], hwf, ?_⟩
      intro hfail
      rw [hsame hfail]
      exact Unchanged.refl m

/-- The table is all contexts. -/
theorem Wf.tabled {m : IoManager} (h : m.Wf) :
    (m.fdContexts.filterMap fun p => m.contexts[p]?) = m.contexts := by
  have hmap : m.fdContexts.map (fun p => m.contexts[p]?) = m.contexts.map some := by
    rw [h.table]
    apply List.ext_getElem <;> simp
  calc m.fdContexts.filterMap (fun p => m.contexts[p]?)
      = (m.fdContexts.map fun p => m.contexts[p]?).filterMap id := by
        rw [List.filterMap_map]
        rfl
    _ = (m.contexts.map some).filterMap id := by rw [hmap]
    _ = m.contexts := by simp [List.filterMap_map]

/-- **The event table of every run.**  Start with a fresh manager and take any
sequence of calls and deliveries, whatever `epoll_ctl` answers.  No step runs
into a fault: no assertion fails, no null scheduler is followed and the count
is never taken below zero.  In the state reached, a bit of a context is set
exactly when somebody waits in its event context, and clear exactly when that
is empty; `m_pendingEventCount` is the number of bits set in the table; the
kernel holds the mask of the context.  And a further step that reports failure
changes nothing. -/
theorem run_event_table {ops : List Op} (hvalid : Machine.Meets step Valid new ops) :
    ∃ outs m, Machine.run step new ops = some (outs, m) ∧
      (∀ fd p c, m.lookup fd = some (p, c) →
        (∀ e, (c.events.has e = true ↔ (c.getContext e).scheduler.isSome ∧
            ((c.getContext e).fiber.isSome ∧ (c.getContext e).cb = none ∨
              (c.getContext e).fiber = none ∧ (c.getContext e).cb.isSome)) ∧
          (c.events.has e = false ↔ c.getContext e = ⟨none, none, none⟩)) ∧
        ((m.epoll fd).map Prod.fst).getD .none = c.events) ∧
      (∀ fd, m.lookup fd = none → m.epoll fd = none) ∧
      m.pendingEventCount = ((m.fdContexts.filterMap fun p => m.contexts[p]?).map
        fun c => c.events.count).sum ∧
      ∀ op, m.Valid op → ∃ out m', step m op = some (out, m') ∧
        (Failed op out → Unchanged m m') := by
  have hstep : ∀ m op, Wf m → m.Valid op → ∃ out m', step m op = some (out, m') ∧ m'.Wf := by
    intro m op h hv
    obtain ⟨out, m', hrun, hwf, _⟩ := step_wf h hv
    exact ⟨out, m', hrun, hwf⟩
  obtain ⟨outs, m, hrun, h⟩ := Machine.run_defined_of_meets hstep new_wf hvalid
  refine ⟨outs, m, hrun, ?_, ?_, ?_, ?_⟩
  · intro fd p c hlook
    rw [h.lookup_eq] at hlook
    obtain ⟨c', hc, heq⟩ := Option.map_eq_some_iff.mp hlook
    obtain ⟨rfl, rfl⟩ := Prod.mk.inj heq
    refine ⟨?_, ?_⟩
    · intro e
      obtain ⟨hset, hclear⟩ := (h.getElem_coherent hc).has_iff e
      refine ⟨hset.trans ?_, hclear⟩
      unfold EventContext.Full
      cases (c'.getContext e).fiber <;> cases (c'.getContext e).cb <;> simp
    · rw [h.interest fd, hc]
      by_cases hnone : c'.events = .none <;> simp [hnone]
  · intro fd hlook
    rw [h.lookup_eq, Option.map_eq_none_iff] at hlook
    rw [h.interest fd, hlook]
    rfl
  · rw [h.tabled]
    exact h.pending
  · intro op hop
    obtain ⟨out, m', hrun', _, hsame⟩ := step_wf h hop
    exact ⟨out, m', hrun', hsame⟩

/-- Both events of a descriptor far outside the table: a refused
registration, a reading fiber, a writing callback, a hang-up that wakes the
two, and a cancellation that finds nothing left. -/
theorem run_event_table_hang_up :
    let ops : List Op := [.call (.addEvent 40 .read none 7 1 false),
      .call (.addEvent 40 .read none 7 1 true), .call (.addEvent 40 .write (some 5) 7 2 true),
      .deliver 40 .none true true, .call (.cancelAll 40 true)]
    ∃ m, Machine.run step new ops =
        some ([.returned false, .returned true, .returned true, .triggered ⟨true, true⟩,
          .returned false], m) ∧
      m.scheduled = [(7, .fiber 1), (7, .cb 5)] ∧ m.pendingEventCount = 0 ∧
      m.pendingEventCount = ((m.fdContexts.filterMap fun p => m.contexts[p]?).map
        fun c => c.events.count).sum := by
  intro ops
  have hvalid : Machine.Meets step Valid new ops := by decide
  obtain ⟨outs, m, hrun, _, _, hcount, _⟩ := run_event_table hvalid
  have hend : (Machine.run step new ops).map
      (fun r => (r.1, r.2.scheduled, r.2.pendingEventCount)) =
      some ([.returned false, .returned true, .returned true, .triggered ⟨true, true⟩,
        .returned false], [(7, .fiber 1), (7, .cb 5)], 0) := by
    decide
  rw [hrun] at hend
  obtain ⟨houts, hrest⟩ := Prod.mk.inj (Option.some.inj hend)
  obtain ⟨hsched, hzero⟩ := Prod.mk.inj hrest
  subst houts
  exact ⟨m, hrun, hsched, hzero, hcount⟩

end IoManager

end Mingo
