import Mingo.IoManager.Waiters

/-!
# Every registration fires at most once

A successful `addEvent` is a registration: somebody waits for an event of a
descriptor.  It ends with a delivery, with `cancelEvent` or `cancelAll`, which
hand the callback or the fiber to its scheduler, or with `delEvent`, which does
not.  The contexts of the table are used again and again, so the tasks handed
out do not tell by themselves which registration they belong to.

`Ledger` keeps the registrations apart by numbers.  It is written from the
calls and what they return alone; it knows of no contexts.  `Traced` runs the
manager and the ledger side by side.

* `Ledger.Sound` -- each registration is live, fired or deleted, and only one of
  the three;
* `Agrees` -- the contexts hold the live registrations, and what has been
  scheduled are the tasks of the fired ones, in order;
* `run_registrations` -- both hold in every run.
-/

namespace Mingo

/-- A successful `addEvent`: its number, and the task to hand to the scheduler. -/
structure Registration where
  id : Nat
  scheduler : Nat
  task : Task
  deriving DecidableEq, Repr

namespace Registration

/-- What the scheduler is given. -/
def handed (r : Registration) : Nat × Task := (r.scheduler, r.task)

/-- What `addEvent` stores. -/
def context (r : Registration) : EventContext :=
  match r.task with
  | .cb cb => ⟨some r.scheduler, none, some cb⟩
  | .fiber f => ⟨some r.scheduler, some f, none⟩

end Registration

/-- The registrations so far: how many, those that are live, and those that have ended. -/
structure Ledger where
  next : Nat
  live : Nat → Event → Option Registration
  fired : List Registration
  deleted : List Registration

namespace Ledger

def empty : Ledger := ⟨0, fun _ _ => none, [], []⟩

/-- Store what is live for an event of a descriptor. -/
def setLive (l : Ledger) (fd : Nat) (event : Event) (r : Option Registration) : Ledger :=
  { l with live := fun fd' event' =>
      if fd' = fd ∧ event' = event then r else l.live fd' event' }

/-- A registration begins. -/
def register (l : Ledger) (fd : Nat) (event : Event) (scheduler : Nat) (task : Task) : Ledger :=
  { l.setLive fd event (some ⟨l.next, scheduler, task⟩) with next := l.next + 1 }

/-- The registration for an event ends and its task is to be scheduled. -/
def fire (l : Ledger) (fd : Nat) (event : Event) : Ledger :=
  match l.live fd event with
  | none => l
  | some r => { l.setLive fd event none with fired := l.fired ++ [r] }

/-- The registration for an event ends and its task is forgotten. -/
def delete (l : Ledger) (fd : Nat) (event : Event) : Ledger :=
  match l.live fd event with
  | none => l
  | some r => { l.setLive fd event none with deleted := l.deleted ++ [r] }

/-- The registrations for the events of a mask end, `READ` before `WRITE`. -/
def fireAll (l : Ledger) (fd : Nat) (events : Events) : Ledger :=
  let l := if events.read then l.fire fd .read else l
  if events.write then l.fire fd .write else l

/-- What a step means for the registrations, from its inputs and its result: a call counts
if it returns success, a delivery if its `epoll_ctl` succeeds.  `EPOLLERR` and `EPOLLHUP`
are for both events. -/
def record (l : Ledger) : IoManager.Op → IoManager.Out → Ledger
  | .call (.addEvent fd event cb scheduler fiber _), .returned true =>
      l.register fd event scheduler (cb.elim (.fiber fiber) .cb)
  | .call (.delEvent fd event _), .returned true => l.delete fd event
  | .call (.cancelEvent fd event _), .returned true => l.fire fd event
  | .call (.cancelAll fd _), .returned true => l.fireAll fd ⟨true, true⟩
  | .deliver fd ready errHup true, _ =>
      l.fireAll fd (if errHup then ⟨true, true⟩ else ready)
  | _, _ => l

end Ledger

/-- A manager and the ledger of its registrations. -/
structure Traced where
  io : IoManager
  ledger : Ledger

namespace Traced

def new : Traced := ⟨IoManager.new, Ledger.empty⟩

/-- One step of the manager, recorded. -/
def step : Machine.Step Traced IoManager.Op IoManager.Out := fun s op =>
  (IoManager.step s.io op).map fun r => (r.1, ⟨r.2, s.ledger.record op r.1⟩)

/-- What the callers and the kernel promise. -/
def Valid (s : Traced) (op : IoManager.Op) : Prop := s.io.Valid op

instance (s : Traced) (op : IoManager.Op) : Decidable (s.Valid op) :=
  inferInstanceAs (Decidable (s.io.Valid op))

end Traced

/-! ### The ledger -/

namespace Ledger

variable {l l' : Ledger} {fd : Nat} {event : Event} {r : Registration}

/-- The registrations that have ended. -/
def ended (l : Ledger) : List Registration := l.fired ++ l.deleted

/-- Each registration has one fate: it is live for one event of one descriptor, or has
fired once, or has been deleted once. -/
structure Sound (l : Ledger) : Prop where
  once : (l.ended.map Registration.id).Nodup
  live_open : ∀ fd event r, l.live fd event = some r → r.id ∉ l.ended.map Registration.id
  live_inj : ∀ fd event r fd' event' r', l.live fd event = some r →
    l.live fd' event' = some r' → r.id = r'.id → fd = fd' ∧ event = event'
  fate : ∀ id, id < l.next ↔
    id ∈ l.ended.map Registration.id ∨ ∃ fd event r, l.live fd event = some r ∧ r.id = id

theorem empty_sound : Sound empty := by
  refine ⟨by simp [ended, empty], ?_, ?_, ?_⟩
  · intro fd event r hr
    cases hr
  · intro fd event r fd' event' r' hr
    cases hr
  · intro id
    simp [ended, empty]

theorem setLive_live (l : Ledger) (fd : Nat) (event : Event) (r : Option Registration)
    (fd' : Nat) (event' : Event) :
    (l.setLive fd event r).live fd' event' =
      if fd' = fd ∧ event' = event then r else l.live fd' event' := rfl

/-- The next number is new. -/
theorem Sound.register (h : l.Sound) (hfree : l.live fd event = none) (scheduler : Nat)
    (task : Task) : (l.register fd event scheduler task).Sound := by
  have hended : (l.register fd event scheduler task).ended = l.ended := rfl
  have hlive : ∀ fd' event' r', (l.register fd event scheduler task).live fd' event' = some r' →
      (fd' = fd ∧ event' = event ∧ r'.id = l.next) ∨
        (l.live fd' event' = some r' ∧ r'.id < l.next) := by
    intro fd' event' r' hr'
    change (if fd' = fd ∧ event' = event then some _ else l.live fd' event') = some r' at hr'
    split at hr'
    · next hslot =>
        cases hr'
        exact Or.inl ⟨hslot.1, hslot.2, rfl⟩
    · exact Or.inr ⟨hr', (h.fate r'.id).mpr (Or.inr ⟨fd', event', r', hr', rfl⟩)⟩
  refine ⟨by rw [hended]; exact h.once, ?_, ?_, ?_⟩
  · intro fd' event' r' hr'
    rw [hended]
    rcases hlive fd' event' r' hr' with ⟨_, _, hid⟩ | ⟨hold, _⟩
    · intro hmem
      have hlt := (h.fate r'.id).mpr (Or.inl hmem)
      omega
    · exact h.live_open fd' event' r' hold
  · intro fd₁ event₁ r₁ fd₂ event₂ r₂ hr₁ hr₂ hid
    rcases hlive fd₁ event₁ r₁ hr₁ with ⟨rfl, rfl, hnew₁⟩ | ⟨hold₁, hlt₁⟩
    · rcases hlive fd₂ event₂ r₂ hr₂ with ⟨rfl, rfl, _⟩ | ⟨_, hlt₂⟩
      · exact ⟨rfl, rfl⟩
      · omega
    · rcases hlive fd₂ event₂ r₂ hr₂ with ⟨_, _, hnew₂⟩ | ⟨hold₂, _⟩
      · omega
      · exact h.live_inj fd₁ event₁ r₁ fd₂ event₂ r₂ hold₁ hold₂ hid
  · intro id
    rw [hended]
    have hnext : (l.register fd event scheduler task).next = l.next + 1 := rfl
    constructor
    · intro hlt
      by_cases hid : id = l.next
      · refine Or.inr ⟨fd, event, ⟨l.next, scheduler, task⟩, ?_, hid.symm⟩
        exact if_pos ⟨rfl, rfl⟩
      · rcases (h.fate id).mp (by omega) with hmem | ⟨fd', event', r', hr', hid'⟩
        · exact Or.inl hmem
        · refine Or.inr ⟨fd', event', r', ?_, hid'⟩
          have hslot : ¬ (fd' = fd ∧ event' = event) := by
            intro hslot
            rw [hslot.1, hslot.2, hfree] at hr'
            cases hr'
          exact (if_neg hslot).trans hr'
    · intro hfate
      rcases hfate with hmem | ⟨fd', event', r', hr', hid'⟩
      · have hlt := (h.fate id).mpr (Or.inl hmem)
        omega
      · rcases hlive fd' event' r' hr' with ⟨_, _, hnew⟩ | ⟨_, hlt⟩
        · omega
        · omega

/-- A live registration ends in one of the two ways. -/
theorem Sound.close (h : l.Sound) (hr : l.live fd event = some r) (hnext : l'.next = l.next)
    (hlive : l'.live = (l.setLive fd event none).live)
    (hended : l'.ended.Perm (r :: l.ended)) : l'.Sound := by
  have hids : (l'.ended.map Registration.id).Perm (r.id :: l.ended.map Registration.id) :=
    hended.map _
  have hstays : ∀ fd' event' r', l'.live fd' event' = some r' →
      l.live fd' event' = some r' ∧ ¬ (fd' = fd ∧ event' = event) := by
    intro fd' event' r' hr'
    rw [hlive, setLive_live] at hr'
    split at hr'
    · cases hr'
    · next hslot => exact ⟨hr', hslot⟩
  refine ⟨?_, ?_, ?_, ?_⟩
  · exact hids.nodup_iff.mpr (List.nodup_cons.mpr ⟨h.live_open fd event r hr, h.once⟩)
  · intro fd' event' r' hr'
    obtain ⟨hold, hslot⟩ := hstays fd' event' r' hr'
    rw [hids.mem_iff, List.mem_cons, not_or]
    refine ⟨?_, h.live_open fd' event' r' hold⟩
    intro hid
    exact hslot (h.live_inj fd' event' r' fd event r hold hr hid)
  · intro fd₁ event₁ r₁ fd₂ event₂ r₂ hr₁ hr₂ hid
    exact h.live_inj fd₁ event₁ r₁ fd₂ event₂ r₂ (hstays _ _ _ hr₁).1 (hstays _ _ _ hr₂).1 hid
  · intro id
    rw [hnext, h.fate id, hids.mem_iff, List.mem_cons]
    constructor
    · intro hfate
      rcases hfate with hmem | ⟨fd', event', r', hr', hid'⟩
      · exact Or.inl (Or.inr hmem)
      · by_cases hslot : fd' = fd ∧ event' = event
        · rw [hslot.1, hslot.2, hr] at hr'
          cases hr'
          exact Or.inl (Or.inl hid'.symm)
        · refine Or.inr ⟨fd', event', r', ?_, hid'⟩
          rw [hlive, setLive_live, if_neg hslot]
          exact hr'
    · intro hfate
      rcases hfate with (hid | hmem) | ⟨fd', event', r', hr', hid'⟩
      · exact Or.inr ⟨fd, event, r, hr, hid.symm⟩
      · exact Or.inl hmem
      · exact Or.inr ⟨fd', event', r', (hstays _ _ _ hr').1, hid'⟩

theorem fire_of_live (hr : l.live fd event = some r) :
    l.fire fd event = { l.setLive fd event none with fired := l.fired ++ [r] } := by
  unfold fire
  rw [hr]

theorem fire_of_none (hr : l.live fd event = none) : l.fire fd event = l := by
  unfold fire
  rw [hr]

theorem Sound.fire (h : l.Sound) (fd : Nat) (event : Event) : (l.fire fd event).Sound := by
  cases hr : l.live fd event with
  | none =>
      rw [fire_of_none hr]
      exact h
  | some r =>
      rw [fire_of_live hr]
      refine h.close hr rfl rfl ?_
      unfold ended
      rw [List.append_assoc]
      exact List.perm_middle

theorem Sound.delete (h : l.Sound) (fd : Nat) (event : Event) : (l.delete fd event).Sound := by
  unfold Ledger.delete
  split
  · exact h
  · next r hr =>
      refine h.close hr rfl rfl ?_
      unfold ended
      dsimp only
      rw [← List.append_assoc]
      exact List.perm_append_singleton _ _

theorem Sound.fireAll (h : l.Sound) (fd : Nat) (events : Events) : (l.fireAll fd events).Sound := by
  unfold Ledger.fireAll
  dsimp only
  split
  · split
    · exact (h.fire fd .read).fire fd .write
    · exact h.fire fd .write
  · split
    · exact h.fire fd .read
    · exact h

/-- Nothing is live for an event that has fired. -/
theorem live_fire (l : Ledger) (fd : Nat) (event : Event) (fd' : Nat) (event' : Event) :
    (l.fire fd event).live fd' event' =
      if fd' = fd ∧ event' = event then none else l.live fd' event' := by
  cases hr : l.live fd event with
  | none =>
      rw [fire_of_none hr]
      split
      · next hslot => rw [hslot.1, hslot.2, hr]
      · rfl
  | some r =>
      rw [fire_of_live hr]
      rfl

/-- Nor for one that has been deleted. -/
theorem live_delete (l : Ledger) (fd : Nat) (event : Event) (fd' : Nat) (event' : Event) :
    (l.delete fd event).live fd' event' =
      if fd' = fd ∧ event' = event then none else l.live fd' event' := by
  unfold Ledger.delete
  split
  · next hr =>
      split
      · next hslot => rw [hslot.1, hslot.2, hr]
      · rfl
  · rfl

/-- Firing the events that are live is firing all. -/
theorem fireAll_all (l : Ledger) {fd : Nat} {events : Events}
    (hnone : ∀ event, events.has event = false → l.live fd event = none) :
    l.fireAll fd ⟨true, true⟩ = l.fireAll fd events := by
  obtain ⟨er, ew⟩ := events
  have hread : l.fire fd .read = if er then l.fire fd .read else l := by
    cases er with
    | true => rfl
    | false => exact fire_of_none (hnone .read rfl)
  have hwrite : (l.fire fd .read).fire fd .write =
      if ew then (l.fire fd .read).fire fd .write else l.fire fd .read := by
    cases ew with
    | true => rfl
    | false =>
        refine fire_of_none ?_
        rw [live_fire, if_neg (by simp)]
        exact hnone .write rfl
  unfold fireAll
  dsimp only
  rw [if_pos rfl, if_pos rfl, hwrite, ← hread]

/-- Nothing is live on a descriptor whose events have all fired. -/
theorem live_fireAll (l : Ledger) (fd : Nat) (event : Event) :
    (l.fireAll fd ⟨true, true⟩).live fd event = none := by
  have hboth : l.fireAll fd ⟨true, true⟩ = (l.fire fd .read).fire fd .write := rfl
  rw [hboth, live_fire, live_fire]
  cases event <;> simp

end Ledger

/-! ### The manager keeps the ledger -/

namespace IoManager

variable {m m' : IoManager} {l : Ledger} {p fd : Nat} {e : Event}

/-- The contexts hold the live registrations, and what has been scheduled are the tasks of
the fired ones. -/
structure Agrees (m : IoManager) (l : Ledger) : Prop where
  table : m.fdContexts = List.range m.contexts.length
  contexts : ∀ fd e, m.contextAt fd e = (l.live fd e).elim .empty Registration.context
  scheduled : m.scheduled = l.fired.map Registration.handed

theorem contextAt_eq (htab : m.fdContexts = List.range m.contexts.length) (fd : Nat) (e : Event) :
    m.contextAt fd e = m.contexts[fd]?.elim .empty fun c => c.getContext e := by
  unfold contextAt lookup
  rw [htab]
  by_cases hlt : fd < m.contexts.length
  · simp [hlt]
  · have hnone : m.contexts[fd]? = none := List.getElem?_eq_none (by omega)
    simp [hlt]

/-- A context is replaced. -/
theorem Agrees.set {l' : Ledger} (h : Agrees m l) {c c' : FdContext}
    (hp : m.contexts[p]? = some c) (hset : m'.contexts = m.contexts.set p c')
    (htab : m'.fdContexts = m.fdContexts)
    (hself : ∀ e, c'.getContext e = (l'.live p e).elim .empty Registration.context)
    (hother : ∀ fd e, fd ≠ p → l'.live fd e = l.live fd e)
    (hsched : m'.scheduled = l'.fired.map Registration.handed) : Agrees m' l' := by
  have htab' : m'.fdContexts = List.range m'.contexts.length := by
    rw [htab, hset, List.length_set, h.table]
  refine ⟨htab', ?_, hsched⟩
  intro fd e
  rw [contextAt_eq htab', hset]
  by_cases hfd : fd = p
  · rw [hfd, getElem?_set_self hp, ← hself]
    rfl
  · rw [List.getElem?_set_ne (Ne.symm hfd), ← contextAt_eq h.table, h.contexts, hother fd e hfd]

/-- Triggering an event with a live registration hands over its task. -/
theorem triggerEvent_registered {c : FdContext} {r : Registration}
    (hhas : c.events.has e = true) (hctx : c.getContext e = r.context) :
    c.triggerEvent e = .ok (some r.handed,
      ({ c with events := c.events.erase e } : FdContext).setContext .empty e) := by
  obtain ⟨id, scheduler, task⟩ := r
  cases task with
  | cb cb =>
      simp [FdContext.triggerEvent, hhas, hctx, Registration.context, Registration.handed,
        EventContext.empty]
  | fiber f =>
      simp [FdContext.triggerEvent, hhas, hctx, Registration.context, Registration.handed,
        EventContext.empty]

/-- The event context of a context in the table. -/
theorem Agrees.context (h : Agrees m l) {c : FdContext} (hp : m.contexts[p]? = some c)
    (e : Event) : c.getContext e = (l.live p e).elim .empty Registration.context := by
  rw [← h.contexts, contextAt_eq h.table, hp]
  rfl

theorem decrement_ok (hrun : m.decrement = .ok m') :
    m' = { m with pendingEventCount := m.pendingEventCount - 1 } := by
  unfold decrement at hrun
  split at hrun
  · cases hrun
  · cases hrun
    rfl

/-- An event context is cleared together with its registration. -/
theorem cleared_context {c : FdContext} {l' : Ledger}
    (hctx : ∀ e, c.getContext e = (l.live p e).elim .empty Registration.context)
    (hlive : ∀ e', l'.live p e' = if e' = e then none else l.live p e') (events : Events) :
    ∀ e', (({ c with events := events } : FdContext).setContext .empty e).getContext e' =
      (l'.live p e').elim .empty Registration.context := by
  intro e'
  rw [FdContext.getContext_setContext, FdContext.getContext_events, hlive]
  split
  · rfl
  · exact hctx e'

/-- **Triggering an event** fires its registration. -/
theorem Agrees.trigger (h : Agrees m l) (hrun : m.trigger p e = .ok m') :
    Agrees m' (l.fire p e) := by
  unfold IoManager.trigger at hrun
  split at hrun
  · cases hrun
  · next c hp =>
      have hctx := h.context hp
      cases hhas : c.events.has e with
      | false =>
          rw [FdContext.triggerEvent_of_not_has hhas] at hrun
          cases hrun
      | true =>
          cases hr : l.live p e with
          | none =>
              have hempty := hctx e
              rw [hr] at hempty
              have herror : c.triggerEvent e = .error .nullScheduler := by
                simp [FdContext.triggerEvent, hhas, hempty, EventContext.empty]
              rw [herror] at hrun
              cases hrun
          | some r =>
              have hregistered := hctx e
              rw [hr] at hregistered
              rw [triggerEvent_registered hhas hregistered] at hrun
              have hm' := decrement_ok hrun
              subst hm'
              refine h.set hp rfl rfl (cleared_context hctx ?_ _) ?_ ?_
              · intro e'
                rw [Ledger.live_fire]
                simp
              · intro fd e' hfd
                rw [Ledger.live_fire, if_neg (fun hslot => hfd hslot.1)]
              · rw [Ledger.fire_of_live hr]
                simp [setContext, h.scheduled]

theorem Agrees.triggerAll {events : Events} (h : Agrees m l)
    (hrun : m.triggerAll p events = .ok m') : Agrees m' (l.fireAll p events) := by
  obtain ⟨er, ew⟩ := events
  have hread : ∃ m₁, Agrees m₁ (if er then l.fire p .read else l) ∧
      (if ew then m₁.trigger p .write else .ok m₁) = .ok m' := by
    cases er with
    | false => exact ⟨m, h, hrun⟩
    | true =>
        cases htrigger : m.trigger p .read with
        | error f =>
            simp [IoManager.triggerAll, htrigger, bind, Except.bind] at hrun
        | ok m₁ =>
            simp only [IoManager.triggerAll, htrigger, bind, Except.bind, if_true] at hrun
            exact ⟨m₁, h.trigger htrigger, hrun⟩
  obtain ⟨m₁, h₁, hwrite⟩ := hread
  cases ew with
  | false =>
      cases hwrite
      exact h₁
  | true => exact h₁.trigger hwrite

/-- The kernel's side does not matter. -/
theorem Agrees.epollCtl (h : Agrees m l) (fd : Nat) (events : Events) (p : Nat) :
    Agrees (m.epollCtl fd events p) l := ⟨h.table, h.contexts, h.scheduled⟩

/-- An event that is not registered has no live registration. -/
theorem Agrees.live_none (h : Agrees m l) (hwf : m.Wf) {c : FdContext}
    (hp : m.contexts[p]? = some c) (hfree : c.events.has e = false) : l.live p e = none := by
  have hempty := (hwf.getElem_coherent hp).empty e hfree
  rw [h.context hp] at hempty
  cases hr : l.live p e with
  | none => rfl
  | some r =>
      rw [hr] at hempty
      obtain ⟨id, scheduler, task⟩ := r
      cases task <;> cases hempty

/-! ### One lemma for each call -/

variable {ctl ok : Bool}

theorem Agrees.addEvent {cb : Option Nat} {scheduler fiber : Nat} (h : Agrees m l) (hwf : m.Wf)
    (hsound : l.Sound) (hrun : m.addEvent fd e cb scheduler fiber ctl = .ok (ok, m')) :
    let l' := l.record (.call (.addEvent fd e cb scheduler fiber ctl)) (.returned ok)
    Agrees m' l' ∧ l'.Sound := by
  obtain ⟨m₁, c, hadd, h₁, hp, hsched, hcontext⟩ :=
    addEvent_table hwf fd e cb scheduler fiber ctl
  have hagrees : Agrees m₁ l :=
    ⟨h₁.table, fun fd e => (hcontext fd e).trans (h.contexts fd e), hsched.trans h.scheduled⟩
  rw [hadd] at hrun
  unfold register at hrun
  rw [hp] at hrun
  dsimp only at hrun
  split at hrun
  · cases hrun
  · next hhas =>
      split at hrun
      · cases hrun
        exact ⟨hagrees, hsound⟩
      · split at hrun
        · cases hrun
        · cases hrun
          have hfree : l.live fd e = none :=
            hagrees.live_none h₁ hp (Bool.eq_false_of_not_eq_true hhas)
          have hlive : ∀ fd' e', (l.register fd e scheduler (cb.elim (.fiber fiber) .cb)).live
              fd' e' = if fd' = fd ∧ e' = e then
                some ⟨l.next, scheduler, cb.elim (.fiber fiber) .cb⟩ else l.live fd' e' :=
            fun _ _ => rfl
          refine ⟨hagrees.set hp rfl rfl ?_ ?_ hagrees.scheduled, hsound.register hfree _ _⟩
          · intro e'
            show _ = ((l.register fd e scheduler (cb.elim (.fiber fiber) .cb)).live fd e').elim _ _
            rw [FdContext.getContext_setContext, FdContext.getContext_events, hlive]
            by_cases he : e' = e
            · rw [if_pos he, if_pos ⟨rfl, he⟩]
              cases cb <;> rfl
            · rw [if_neg he, if_neg (fun hslot => he hslot.2)]
              exact hagrees.context hp e'
          · intro fd' e' hfd
            exact (hlive fd' e').trans (if_neg (fun hslot => hfd hslot.1))

/-- What a `delEvent` that does not fault has done. -/
theorem delEvent_cases (hwf : m.Wf) (hrun : m.delEvent fd e ctl = .ok (ok, m')) :
    (ok = false ∧ m' = m) ∨ (ok = true ∧ ∃ c m₁, m.contexts[fd]? = some c ∧
      (m.epollCtl fd (c.events.erase e) fd).decrement = .ok m₁ ∧
      m' = m₁.setContext fd
        (({ c with events := c.events.erase e } : FdContext).setContext .empty e)) := by
  unfold IoManager.delEvent at hrun
  rw [hwf.lookup_eq] at hrun
  cases hp : m.contexts[fd]? with
  | none =>
      rw [hp] at hrun
      cases hrun
      exact Or.inl ⟨rfl, rfl⟩
  | some c =>
      rw [hp] at hrun
      simp only [Option.map_some] at hrun
      split at hrun
      · cases hrun
        exact Or.inl ⟨rfl, rfl⟩
      split at hrun
      · cases hrun
        exact Or.inl ⟨rfl, rfl⟩
      · obtain ⟨m₁, hdec, heq⟩ := bind_eq_ok hrun
        cases heq
        exact Or.inr ⟨rfl, c, m₁, rfl, hdec, rfl⟩

theorem Agrees.delEvent (h : Agrees m l) (hwf : m.Wf) (hsound : l.Sound)
    (hrun : m.delEvent fd e ctl = .ok (ok, m')) :
    let l' := l.record (.call (.delEvent fd e ctl)) (.returned ok)
    Agrees m' l' ∧ l'.Sound := by
  rcases delEvent_cases hwf hrun with ⟨rfl, rfl⟩ | ⟨rfl, c, m₁, hp, hdec, rfl⟩
  · exact ⟨h, hsound⟩
  · have hm₁ := decrement_ok hdec
    subst hm₁
    refine ⟨h.set hp rfl rfl (cleared_context (h.context hp) ?_ _) ?_ ?_, hsound.delete fd e⟩
    · intro e'
      show (l.delete fd e).live fd e' = _
      rw [Ledger.live_delete]
      simp
    · intro fd' e' hfd
      show (l.delete fd e).live fd' e' = _
      rw [Ledger.live_delete, if_neg (fun hslot => hfd hslot.1)]
    · show m.scheduled = (l.delete fd e).fired.map Registration.handed
      rw [h.scheduled]
      unfold Ledger.delete
      split <;> rfl

theorem Agrees.cancelEvent (h : Agrees m l) (hwf : m.Wf) (hsound : l.Sound)
    (hrun : m.cancelEvent fd e ctl = .ok (ok, m')) :
    let l' := l.record (.call (.cancelEvent fd e ctl)) (.returned ok)
    Agrees m' l' ∧ l'.Sound := by
  rcases cancelEvent_cases hwf hrun with ⟨rfl, rfl, _⟩ | ⟨rfl, c, hp, htrigger⟩
  · exact ⟨h, hsound⟩
  · exact ⟨(h.epollCtl _ _ _).trigger htrigger, hsound.fire fd e⟩

theorem Agrees.cancelAll (h : Agrees m l) (hwf : m.Wf) (hsound : l.Sound)
    (hrun : m.cancelAll fd ctl = .ok (ok, m')) :
    let l' := l.record (.call (.cancelAll fd ctl)) (.returned ok)
    Agrees m' l' ∧ l'.Sound := by
  rcases cancelAll_cases hwf hrun with ⟨rfl, rfl⟩ | ⟨rfl, c, hp, htrigger⟩
  · exact ⟨h, hsound⟩
  · have hall := l.fireAll_all (fun event => h.live_none hwf hp (e := event))
    have hagrees := (h.epollCtl _ _ _).triggerAll htrigger
    rw [← hall] at hagrees
    exact ⟨hagrees, hsound.fireAll fd ⟨true, true⟩⟩

theorem eq_none_of_inter {events done : Events} (hsub : done.subset events)
    (hinter : events.inter done = .none) : done = .none := by
  obtain ⟨a, b⟩ := events
  obtain ⟨c, d⟩ := done
  revert a b c d
  decide

/-- **A delivery** of registered events fires their registrations; one that carries
`EPOLLERR` or `EPOLLHUP` fires all on the descriptor. -/
theorem Agrees.idleEvent {ready done : Events} {errHup : Bool} {c : FdContext} (h : Agrees m l)
    (hwf : m.Wf) (hsound : l.Sound) (hp : m.contexts[fd]? = some c)
    (hsub : ready.subset c.events)
    (hrun : m.idleEvent ⟨fd, ready, errHup⟩ ctl = .ok (done, m')) :
    let l' := l.record (.deliver fd ready errHup ctl) (.triggered done)
    Agrees m' l' ∧ l'.Sound := by
  have hfires : l.record (.deliver fd ready errHup true) (.triggered done) =
      l.fireAll fd (realEvents c ⟨fd, ready, errHup⟩) := by
    show l.fireAll fd (if errHup then ⟨true, true⟩ else ready) = _
    unfold realEvents
    cases errHup with
    | false => rfl
    | true =>
        rw [if_pos rfl, if_pos rfl]
        dsimp only
        rw [union_of_subset hsub]
        exact l.fireAll_all (fun event => h.live_none hwf hp (e := event))
  rcases idleEvent_cases hp hrun with ⟨rfl, hnone⟩ | ⟨rfl, htrigger⟩
  · cases ctl with
    | false => exact ⟨h, hsound⟩
    | true =>
        have hreal : (realEvents c ⟨fd, ready, errHup⟩).subset c.events := realEvents_subset hsub
        rw [hfires, eq_none_of_inter hreal (hnone rfl)]
        exact ⟨h, hsound⟩
  · rw [hfires]
    exact ⟨(h.epollCtl _ _ _).triggerAll htrigger, hsound.fireAll fd _⟩

end IoManager

/-! ### Runs -/

namespace Traced

open IoManager

/-- The invariant of a recorded run. -/
structure Faithful (s : Traced) : Prop where
  wf : s.io.Wf
  agrees : Agrees s.io s.ledger
  sound : s.ledger.Sound

theorem new_faithful : new.Faithful := by
  refine ⟨new_wf, ⟨new_wf.table, ?_, rfl⟩, Ledger.empty_sound⟩
  intro fd e
  have hcontexts : IoManager.new.contexts = (List.range 32).map FdContext.new := by decide
  show IoManager.new.contextAt fd e = .empty
  rw [contextAt_eq new_wf.table, hcontexts, List.getElem?_map]
  cases (List.range 32)[fd]? with
  | none => rfl
  | some fd' => cases e <;> rfl

/-- **Step lemma**: every step is defined and keeps the ledger. -/
theorem step_faithful (s : Traced) (op : IoManager.Op) (h : s.Faithful) (hvalid : s.Valid op) :
    ∃ out t, step s op = some (out, t) ∧ t.Faithful := by
  obtain ⟨out, m', hstep, hwf, _⟩ := step_wf h.wf hvalid
  have hboth : Agrees m' (s.ledger.record op out) ∧ (s.ledger.record op out).Sound := by
    cases op with
    | call call =>
        obtain ⟨⟨ok, m₁⟩, hcall, heq⟩ := Option.map_eq_some_iff.mp hstep
        cases heq
        have hrun := toOption_eq_some hcall
        cases call with
        | addEvent fd e cb scheduler fiber ctl => exact h.agrees.addEvent h.wf h.sound hrun
        | delEvent fd e ctl => exact h.agrees.delEvent h.wf h.sound hrun
        | cancelEvent fd e ctl => exact h.agrees.cancelEvent h.wf h.sound hrun
        | cancelAll fd ctl => exact h.agrees.cancelAll h.wf h.sound hrun
    | deliver fd ready errHup ctl =>
        obtain ⟨entry, hentry, hsub⟩ := hvalid
        obtain ⟨c, hc, rfl⟩ := h.wf.entry hentry
        have hentry' : s.io.epoll fd = some (c.events, fd) := hentry
        simp only [IoManager.step, hentry'] at hstep
        obtain ⟨⟨done, m₁⟩, hidle, heq⟩ := Option.map_eq_some_iff.mp hstep
        cases heq
        exact h.agrees.idleEvent h.wf h.sound hc hsub (toOption_eq_some hidle)
  exact ⟨out, ⟨m', s.ledger.record op out⟩, by simp [step, hstep], hwf, hboth.1, hboth.2⟩

/-- An event is registered as long as its registration is live. -/
theorem Faithful.registered_iff {s : Traced} (h : s.Faithful) (fd : Nat) (e : Event) :
    (s.ledger.live fd e).isSome ↔
      ∃ c, s.io.contexts[fd]? = some c ∧ c.events.has e = true := by
  constructor
  · intro hlive
    obtain ⟨r, hr⟩ := Option.isSome_iff_exists.mp hlive
    have hcontext := h.agrees.contexts fd e
    rw [contextAt_eq h.agrees.table, hr] at hcontext
    cases hc : s.io.contexts[fd]? with
    | none =>
        rw [hc] at hcontext
        obtain ⟨id, scheduler, task⟩ := r
        cases task <;> cases hcontext
    | some c =>
        refine ⟨c, rfl, ?_⟩
        cases hhas : c.events.has e with
        | true => rfl
        | false =>
            rw [h.agrees.live_none h.wf hc hhas] at hr
            cases hr
  · intro hhas
    obtain ⟨c, hc, hbit⟩ := hhas
    cases hr : s.ledger.live fd e with
    | some r => rfl
    | none =>
        have hfull := (h.wf.getElem_coherent hc).full e hbit
        rw [h.agrees.context hc, hr] at hfull
        exact absurd hfull EventContext.not_full_empty

/-- After a delivery with `EPOLLERR` or `EPOLLHUP` nobody waits on the descriptor. -/
theorem hangUp_live {s t : Traced} {fd : Nat} {ready : Events} {out : Out}
    (hstep : step s (.deliver fd ready true true) = some (out, t)) (e : Event) :
    t.ledger.live fd e = none := by
  obtain ⟨⟨out', m'⟩, _, heq⟩ := Option.map_eq_some_iff.mp hstep
  cases heq
  exact s.ledger.live_fireAll fd e

/-- **Registrations fire at most once.**  In every run of calls and deliveries, where each
`epoll_ctl` may fail, a registration has one fate (`Sound`): it is live, fired or deleted,
and was so once.  What the schedulers have been given are the tasks of the fired ones, and
the table holds the live ones (`Agrees`).  A delivery with `EPOLLERR` or `EPOLLHUP` whose
`epoll_ctl` succeeds ends all registrations of the descriptor. -/
theorem run_registrations {ops : List IoManager.Op}
    (hvalid : Machine.Meets step Valid new ops) :
    ∃ outs s, Machine.run step new ops = some (outs, s) ∧ s.ledger.Sound ∧
      Agrees s.io s.ledger ∧
      (∀ fd e, (s.ledger.live fd e).isSome ↔
        ∃ c, s.io.contexts[fd]? = some c ∧ c.events.has e = true) ∧
      ∀ fd ready, s.Valid (.deliver fd ready true true) →
        ∃ out t, step s (.deliver fd ready true true) = some (out, t) ∧
          ∀ e, t.ledger.live fd e = none ∧
            ∀ c, t.io.contexts[fd]? = some c → c.events.has e = false := by
  obtain ⟨outs, s, hrun, h⟩ := Machine.run_defined_of_meets step_faithful new_faithful hvalid
  refine ⟨outs, s, hrun, h.sound, h.agrees, h.registered_iff, ?_⟩
  intro fd ready hdeliver
  obtain ⟨out, t, hstep, ht⟩ := step_faithful s _ h hdeliver
  refine ⟨out, t, hstep, ?_⟩
  intro e
  have hnone := hangUp_live hstep e
  refine ⟨hnone, ?_⟩
  intro c hc
  cases hhas : c.events.has e with
  | false => rfl
  | true =>
      have hlive := (ht.registered_iff fd e).mpr ⟨c, hc, hhas⟩
      rw [hnone] at hlive
      cases hlive

/-- One context, four registrations: a hang-up fires two, the next one is deleted, and the
last one is cancelled. -/
theorem run_registrations_reused :
    let ops : List IoManager.Op := [.call (.addEvent 5 .read none 7 1 true),
      .call (.addEvent 5 .write (some 9) 7 2 true), .deliver 5 .none true true,
      .call (.addEvent 5 .read none 7 1 true), .call (.delEvent 5 .read true),
      .call (.addEvent 5 .read none 7 1 true), .call (.cancelEvent 5 .read true)]
    ∃ outs s, Machine.run step new ops = some (outs, s) ∧ s.ledger.Sound ∧
      s.ledger.fired.map Registration.id = [0, 1, 3] ∧
      s.ledger.deleted.map Registration.id = [2] ∧
      s.io.scheduled = [(7, .fiber 1), (7, .cb 9), (7, .fiber 1)] := by
  intro ops
  have hvalid : Machine.Meets step Valid new ops := by decide
  obtain ⟨outs, s, hrun, hsound, _⟩ := run_registrations hvalid
  have hend : (Machine.run step new ops).map (fun r => (r.2.ledger.fired.map Registration.id,
      r.2.ledger.deleted.map Registration.id, r.2.io.scheduled)) =
      some ([0, 1, 3], [2], [(7, .fiber 1), (7, .cb 9), (7, .fiber 1)]) := by
    decide
  rw [hrun] at hend
  obtain ⟨hfired, hrest⟩ := Prod.mk.inj (Option.some.inj hend)
  obtain ⟨hdeleted, hscheduled⟩ := Prod.mk.inj hrest
  exact ⟨outs, s, hrun, hsound, hfired, hdeleted, hscheduled⟩

/-- `idle` goes on to the next entry when its `epoll_ctl` fails: the hang-up is dropped, the
registration stays and nothing is scheduled. -/
theorem hangUp_dropped :
    let ops : List IoManager.Op := [.call (.addEvent 5 .read none 7 1 true),
      .deliver 5 .none true false]
    Machine.Meets step Valid new ops ∧
      (Machine.run step new ops).map (fun r => (r.2.ledger.live 5 .read,
        r.2.io.contexts[5]?.map fun c => c.events, r.2.io.scheduled)) =
        some (some ⟨0, 7, .fiber 1⟩, some ⟨true, false⟩, []) := by
  decide

end Traced

end Mingo
