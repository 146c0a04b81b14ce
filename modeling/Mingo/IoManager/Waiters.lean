import Mingo.IoManager.Stale

/-!
# The fibers that wait in the event table

Seen from the fibers, the event table is a map from descriptors and events to
the fibers that wait for them, and a call that triggers events takes fibers
out of the map and hands them to a scheduler.

* `cancelEvent_cases`, `cancelAll_cases`, `idleEvent_cases` -- what a call that
  does not fault has done;
* `Wakes` -- what `cancelEvent`, `cancelAll` and `idle` do to the map;
* `addEvent_waiter` -- what `addEvent` does to it;
* `cancelEvent_waiter` -- nobody waits for an event that was cancelled.
-/

namespace Mingo

/-- A step of a machine is defined where the call does not fault. -/
theorem toOption_eq_some {ε α : Type} {r : Except ε α} {a : α} (h : r.toOption = some a) :
    r = .ok a := by
  cases r with
  | error e => cases h
  | ok b =>
      cases h
      rfl

/-- The first part of a call that does not fault. -/
theorem bind_eq_ok {ε α β : Type} {x : Except ε α} {f : α → Except ε β} {b : β}
    (h : x.bind f = .ok b) : ∃ a, x = .ok a ∧ f a = .ok b := by
  cases x with
  | error e => cases h
  | ok a => exact ⟨a, rfl, h⟩

namespace IoManager

/-- The fiber in the context of an event. -/
def waiter (m : IoManager) (fd : Nat) (event : Event) : Option Nat :=
  (m.lookup fd).bind fun pc => (pc.2.getContext event).fiber

/-- Who waits for an event, as its event context says. -/
def contextAt (m : IoManager) (fd : Nat) (event : Event) : EventContext :=
  (m.lookup fd).elim .empty fun pc => pc.2.getContext event

theorem waiter_eq (m : IoManager) (fd : Nat) (event : Event) :
    m.waiter fd event = (m.contextAt fd event).fiber := by
  unfold waiter contextAt
  cases m.lookup fd <;> rfl

/-- The tasks handed to a scheduler. -/
def tasks (m : IoManager) : List Task := m.scheduled.map Prod.snd

/-- Some of the fibers that waited have been handed to a scheduler. -/
structure Wakes (m m' : IoManager) : Prop where
  waiter : ∀ fd e, m'.waiter fd e = m.waiter fd e ∨
    m'.waiter fd e = none ∧ ∀ f, m.waiter fd e = some f → Task.fiber f ∈ m'.tasks
  tasks : ∀ x, x ∈ m.tasks → x ∈ m'.tasks

theorem Wakes.refl (m : IoManager) : Wakes m m := ⟨fun _ _ => .inl rfl, fun _ hx => hx⟩

theorem Wakes.trans {m₁ m₂ m₃ : IoManager} (h : Wakes m₁ m₂) (h' : Wakes m₂ m₃) :
    Wakes m₁ m₃ := by
  refine ⟨?_, fun x hx => h'.tasks x (h.tasks x hx)⟩
  intro fd e
  rcases h.waiter fd e with hsame | ⟨hnone, hwoken⟩
  · rw [← hsame]
    exact h'.waiter fd e
  · refine .inr ⟨?_, fun f hf => h'.tasks _ (hwoken f hf)⟩
    rcases h'.waiter fd e with hsame | ⟨hnone', -⟩
    · rw [hsame, hnone]
    · exact hnone'

/-- Nobody is forgotten: a fiber that waited still does, or was handed to a
scheduler. -/
theorem Wakes.waits_or_woken {m m' : IoManager} (h : Wakes m m') {fd f : Nat} {e : Event}
    (hf : m.waiter fd e = some f) : m'.waiter fd e = some f ∨ Task.fiber f ∈ m'.tasks := by
  rcases h.waiter fd e with hsame | ⟨-, hwoken⟩
  · exact .inl (hsame.trans hf)
  · exact .inr (hwoken f hf)

/-- Nobody begins to wait. -/
theorem Wakes.waited {m m' : IoManager} (h : Wakes m m') {fd f : Nat} {e : Event}
    (hf : m'.waiter fd e = some f) : m.waiter fd e = some f := by
  rcases h.waiter fd e with hsame | ⟨hnone, -⟩
  · exact hsame.symm.trans hf
  · rw [hnone] at hf
    cases hf

/-! ### Triggering -/

/-- The task that triggering an event hands over is the fiber that waits. -/
theorem triggerEvent_task {c c' : FdContext} (hc : c.Coherent) {e : Event}
    {task : Option (Nat × Task)} (hrun : c.triggerEvent e = .ok (task, c')) :
    c' = ({ c with events := c.events.erase e } : FdContext).setContext .empty e ∧
      ∀ f, (c.getContext e).fiber = some f → ∃ scheduler, task = some (scheduler, .fiber f) := by
  cases he : c.events.has e with
  | false =>
      rw [FdContext.triggerEvent_of_not_has he] at hrun
      cases hrun
  | true =>
      obtain ⟨task', hspec⟩ := FdContext.triggerEvent_spec hc he
      rw [hspec] at hrun
      cases hrun
      refine ⟨rfl, ?_⟩
      intro f hf
      obtain ⟨hsched, hone⟩ := hc.full e he
      obtain ⟨scheduler, hscheduler⟩ := Option.isSome_iff_exists.mp hsched
      have hcb : (c.getContext e).cb = none := hone.mp (by rw [hf]; rfl)
      refine ⟨scheduler, ?_⟩
      simp [FdContext.triggerEvent, he, hscheduler, hcb, hf] at hspec
      exact congrArg some hspec.1.symm

/-- What triggering events of the context `p` leaves as it was. -/
structure TriggersIn (m m' : IoManager) (p : Nat) : Prop where
  wakes : Wakes m m'
  table : m'.fdContexts = m.fdContexts
  coherent : ∃ c, m'.contexts[p]? = some c ∧ c.Coherent

theorem waiter_set {m m' : IoManager} {p fd : Nat} {c c' : FdContext} {e : Event}
    (hp : m.contexts[p]? = some c) (hset : m'.contexts = m.contexts.set p c')
    (htab : m'.fdContexts = m.fdContexts)
    (hsame : (c'.getContext e).fiber = (c.getContext e).fiber) :
    m'.waiter fd e = m.waiter fd e := by
  unfold waiter lookup
  rw [htab]
  cases m.fdContexts[fd]? with
  | none => rfl
  | some q =>
      by_cases hq : q = p
      · subst hq
        simp [hset, getElem?_set_self hp, hp, hsame]
      · simp [hset, List.getElem?_set_ne (Ne.symm hq)]

theorem waiter_of_table {m : IoManager} {p fd : Nat} {c : FdContext} {e : Event}
    (hp : m.contexts[p]? = some c) (hfd : m.fdContexts[fd]? = some p) :
    m.waiter fd e = (c.getContext e).fiber := by
  simp [waiter, lookup, hfd, hp]

/-- **Triggering one event** wakes up the fiber that waits for it. -/
theorem trigger_wakes {m m' : IoManager} {p : Nat} {c : FdContext} {e : Event}
    (hp : m.contexts[p]? = some c) (hc : c.Coherent) (hrun : m.trigger p e = .ok m') :
    TriggersIn m m' p ∧ ∀ fd, m.fdContexts[fd]? = some p → m'.waiter fd e = none := by
  cases htrigger : c.triggerEvent e with
  | error fault =>
      simp [trigger, hp, htrigger, bind, Except.bind] at hrun
  | ok r =>
      obtain ⟨task, c'⟩ := r
      obtain ⟨rfl, htask⟩ := triggerEvent_task hc htrigger
      simp only [trigger, hp, htrigger, bind, Except.bind, decrement] at hrun
      split at hrun
      · cases hrun
      cases hrun
      refine ⟨⟨⟨?_, ?_⟩, rfl, ?_⟩, ?_⟩
      · intro fd e'
        by_cases he' : e' = e
        · subst he'
          unfold waiter lookup tasks
          cases htab : m.fdContexts[fd]? with
          | none => exact .inl (by simp [htab, setContext])
          | some q =>
              by_cases hq : q = p
              · subst hq
                refine .inr ⟨?_, ?_⟩
                · simp [setContext, htab, getElem?_set_self hp, EventContext.empty]
                · intro f hf
                  obtain ⟨scheduler, rfl⟩ := htask f (by simpa [htab, hp] using hf)
                  simp [setContext]
              · exact .inl (by simp [setContext, htab, List.getElem?_set_ne (Ne.symm hq)])
        · exact .inl (waiter_set hp rfl rfl (by simp [he']))
      · intro x hx
        simp only [tasks, setContext, List.map_append, List.mem_append] at hx ⊢
        exact .inl hx
      · exact ⟨_, getElem?_set_self hp, hc.erase e⟩
      · intro fd hfd
        simp [waiter, lookup, setContext, hfd, getElem?_set_self hp, EventContext.empty]

theorem triggerAll_wakes {m m' : IoManager} {p : Nat} {c : FdContext} {events : Events}
    (hp : m.contexts[p]? = some c) (hc : c.Coherent) (hrun : m.triggerAll p events = .ok m') :
    TriggersIn m m' p := by
  obtain ⟨er, ew⟩ := events
  have hread : ∃ m₁, TriggersIn m m₁ p ∧
      (if ew then m₁.trigger p .write else .ok m₁) = .ok m' := by
    cases er with
    | false => exact ⟨m, ⟨Wakes.refl m, rfl, c, hp, hc⟩, hrun⟩
    | true =>
        cases hfirst : m.trigger p .read with
        | error fault => simp [triggerAll, hfirst, bind, Except.bind] at hrun
        | ok m₁ =>
            refine ⟨m₁, (trigger_wakes hp hc hfirst).1, ?_⟩
            simpa [triggerAll, hfirst, bind, Except.bind] using hrun
  obtain ⟨m₁, h₁, hrest⟩ := hread
  cases ew with
  | false =>
      cases hrest
      exact h₁
  | true =>
      obtain ⟨c₁, hp₁, hc₁⟩ := h₁.coherent
      obtain ⟨h₂, -⟩ := trigger_wakes hp₁ hc₁ hrest
      exact ⟨h₁.wakes.trans h₂.wakes, h₂.table.trans h₁.table, h₂.coherent⟩

/-! ### The calls -/

variable {m m' : IoManager} {fd : Nat} {e : Event} {ok ctl : Bool}

/-- Telling the kernel moves nobody. -/
theorem wakes_epollCtl (m : IoManager) (fd : Nat) (events : Events) (p : Nat) :
    Wakes m (m.epollCtl fd events p) := ⟨fun _ _ => .inl rfl, fun _ hx => hx⟩

/-- What a `cancelEvent` that does not fault has done. -/
theorem cancelEvent_cases (h : m.Wf) (hrun : m.cancelEvent fd e ctl = .ok (ok, m')) :
    (ok = false ∧ m' = m ∧
      (ctl = true → ∀ c, m.contexts[fd]? = some c → c.events.has e = false)) ∨
      (ok = true ∧ ∃ c, m.contexts[fd]? = some c ∧
        (m.epollCtl fd (c.events.erase e) fd).trigger fd e = .ok m') := by
  unfold cancelEvent at hrun
  rw [h.lookup_eq] at hrun
  cases hp : m.contexts[fd]? with
  | none =>
      rw [hp] at hrun
      cases hrun
      exact Or.inl ⟨rfl, rfl, fun _ => nofun⟩
  | some c =>
      rw [hp] at hrun
      simp only [Option.map_some] at hrun
      split at hrun
      · next hfree =>
          cases hrun
          refine Or.inl ⟨rfl, rfl, ?_⟩
          intro _ c' hc'
          rw [← Option.some.inj hc']
          simpa using hfree
      split at hrun
      · next hctl =>
          cases hrun
          refine Or.inl ⟨rfl, rfl, ?_⟩
          intro htrue
          simp [htrue] at hctl
      · obtain ⟨m₁, htrigger, heq⟩ := bind_eq_ok hrun
        cases heq
        exact Or.inr ⟨rfl, c, rfl, htrigger⟩

/-- What a `cancelAll` that does not fault has done. -/
theorem cancelAll_cases (h : m.Wf) (hrun : m.cancelAll fd ctl = .ok (ok, m')) :
    (ok = false ∧ m' = m) ∨ (ok = true ∧ ∃ c, m.contexts[fd]? = some c ∧
      (m.epollCtl fd .none fd).triggerAll fd c.events = .ok m') := by
  unfold cancelAll at hrun
  rw [h.lookup_eq] at hrun
  cases hp : m.contexts[fd]? with
  | none =>
      rw [hp] at hrun
      cases hrun
      exact Or.inl ⟨rfl, rfl⟩
  | some c =>
      rw [hp] at hrun
      simp only [Option.map_some] at hrun
      split at hrun
      · cases hrun
        exact Or.inl ⟨rfl, rfl⟩
      split at hrun
      · cases hrun
        exact Or.inl ⟨rfl, rfl⟩
      · obtain ⟨m₁, htrigger, hrest⟩ := bind_eq_ok hrun
        split at hrest
        · cases hrest
          exact Or.inr ⟨rfl, c, rfl, htrigger⟩
        · cases hrest

/-- What `idle` has done with an entry that did not make it fault. -/
theorem idleEvent_cases {event : EpollEvent} {c : FdContext} {done : Events}
    (hp : m.contexts[event.ptr]? = some c) (hrun : m.idleEvent event ctl = .ok (done, m')) :
    (m' = m ∧ (ctl = true → c.events.inter (realEvents c event) = .none)) ∨
      (ctl = true ∧ (m.epollCtl c.fd (c.events.diff (realEvents c event)) event.ptr).triggerAll
        event.ptr (realEvents c event) = .ok m') := by
  unfold idleEvent at hrun
  simp only [hp] at hrun
  split at hrun
  · next hnone =>
      cases hrun
      exact Or.inl ⟨rfl, fun _ => hnone⟩
  split at hrun
  · next hctl =>
      cases hrun
      refine Or.inl ⟨rfl, ?_⟩
      intro htrue
      simp [htrue] at hctl
  · next hctl =>
      obtain ⟨m₁, htrigger, heq⟩ := bind_eq_ok hrun
      cases heq
      exact Or.inr ⟨by simpa using hctl, htrigger⟩

theorem cancelEvent_wakes (h : m.Wf) (hrun : m.cancelEvent fd e ctl = .ok (ok, m')) :
    m'.Wf ∧ Wakes m m' := by
  obtain ⟨ok', m'', hkept, hwf, -⟩ := cancelEvent_spec h fd e ctl
  rw [hkept] at hrun
  cases hrun
  refine ⟨hwf, ?_⟩
  rcases cancelEvent_cases h hkept with ⟨_, hsame, _⟩ | ⟨_, c, hp, htrigger⟩
  · rw [hsame]
    exact Wakes.refl m
  · exact (wakes_epollCtl m fd (c.events.erase e) fd).trans
      (trigger_wakes (m := m.epollCtl _ _ _) hp (h.getElem_coherent hp) htrigger).1.wakes

/-- **After a `cancelEvent`** whose `epoll_ctl` succeeds nobody waits for the
event. -/
theorem cancelEvent_waiter (h : m.Wf) (hrun : m.cancelEvent fd e true = .ok (ok, m')) :
    m'.waiter fd e = none := by
  rcases cancelEvent_cases h hrun with ⟨_, hsame, hfree⟩ | ⟨_, c, hp, htrigger⟩
  · rw [hsame]
    cases hp : m.contexts[fd]? with
    | none => simp [waiter, h.lookup_eq, hp]
    | some c =>
        have hempty := (h.getElem_coherent hp).empty e (hfree rfl c hp)
        simp [waiter, h.lookup_eq, hp, hempty, EventContext.empty]
  · have hlt := (List.getElem?_eq_some_iff.mp hp).1
    have hfd : (m.epollCtl fd (c.events.erase e) fd).fdContexts[fd]? = some fd := by
      simp [epollCtl, h.table, hlt]
    exact (trigger_wakes (m := m.epollCtl _ _ _) hp (h.getElem_coherent hp) htrigger).2 fd hfd

theorem cancelAll_wakes (h : m.Wf) (hrun : m.cancelAll fd ctl = .ok (ok, m')) :
    m'.Wf ∧ Wakes m m' := by
  obtain ⟨ok', m'', hkept, hwf, -⟩ := cancelAll_spec h fd ctl
  rw [hkept] at hrun
  cases hrun
  refine ⟨hwf, ?_⟩
  rcases cancelAll_cases h hkept with ⟨_, hsame⟩ | ⟨_, c, hp, htrigger⟩
  · rw [hsame]
    exact Wakes.refl m
  · exact (wakes_epollCtl m fd .none fd).trans
      (triggerAll_wakes (m := m.epollCtl _ _ _) hp (h.getElem_coherent hp) htrigger).wakes

/-- Processing an entry of `epoll_wait`, however late, wakes up some of the
fibers. -/
theorem idleEvent_wakes (h : m.Wf) {event : EpollEvent} {done : Events}
    (hrun : m.idleEvent event ctl = .ok (done, m')) : m'.Wf ∧ Wakes m m' := by
  cases hp : m.contexts[event.ptr]? with
  | none => simp [idleEvent, hp] at hrun
  | some c =>
      rcases idleEvent_cases hp hrun with ⟨hsame, _⟩ | ⟨hctl, htrigger⟩
      · rw [hsame]
        exact ⟨h, Wakes.refl m⟩
      · have hharm : Harmless c event := by
          by_contra hharm
          rw [hctl, Polling.idleEvent_of_not_harmless h hp hharm] at hrun
          cases hrun
        obtain ⟨done', m'', hspec, hwf, -⟩ := idleEvent_spec h hp hharm ctl
        rw [hspec] at hrun
        cases hrun
        refine ⟨hwf, ?_⟩
        exact (wakes_epollCtl m c.fd (c.events.diff (realEvents c event)) event.ptr).trans
          (triggerAll_wakes (m := m.epollCtl _ _ _) hp (h.getElem_coherent hp) htrigger).wakes

/-- Nobody waits in the contexts that a growing table adds. -/
theorem contextAt_grow (h : m.Wf) {size : Nat} (hsize : m.contexts.length ≤ size) (fd : Nat)
    (e : Event) : (m.contextResize size).contextAt fd e = m.contextAt fd e := by
  obtain ⟨hgrown, -, hcontexts⟩ := h.grow hsize
  unfold contextAt
  rw [hgrown.lookup_eq, h.lookup_eq, hcontexts]
  by_cases hlt : fd < m.contexts.length
  · rw [List.getElem?_append_left hlt]
  · rw [List.getElem?_append_right (Nat.not_lt.mp hlt), List.getElem?_map,
      List.getElem?_eq_none (Nat.not_lt.mp hlt)]
    cases (List.range' m.contexts.length (size - m.contexts.length))[fd - m.contexts.length]? with
    | none => rfl
    | some fd' => cases e <;> rfl

/-- The table that `addEvent` goes on with. -/
theorem addEvent_table (h : m.Wf) (fd : Nat) (e : Event) (cb : Option Nat) (scheduler f : Nat)
    (ctl : Bool) : ∃ (m₁ : IoManager) (c : FdContext), m.addEvent fd e cb scheduler f ctl =
      m₁.register fd fd e cb scheduler f ctl ∧ m₁.Wf ∧ m₁.contexts[fd]? = some c ∧
        m₁.scheduled = m.scheduled ∧ ∀ fd e, m₁.contextAt fd e = m.contextAt fd e := by
  have hlen : m.fdContexts.length = m.contexts.length := by rw [h.table, List.length_range]
  by_cases hlt : fd < m.contexts.length
  · have htab : m.fdContexts[fd]? = some fd := by simp [h.table, hlt]
    have hfits : m.fdContexts.length > fd := by omega
    exact ⟨m, _, by simp only [addEvent, if_pos hfits, htab], h, List.getElem?_eq_getElem hlt, rfl,
      fun _ _ => rfl⟩
  · have hsize := h.size
    have hgrows : m.contexts.length ≤ grownSize fd := by
      rw [grownSize]
      omega
    obtain ⟨hgrown, hlen', -⟩ := h.grow hgrows
    have hlt' : fd < (m.contextResize (grownSize fd)).contexts.length := by
      rw [hlen', grownSize]
      omega
    have htab : (m.contextResize (grownSize fd)).fdContexts[fd]? = some fd := by
      simp [hgrown.table, hlt']
    have hfull : ¬ m.fdContexts.length > fd := by omega
    exact ⟨_, _, by simp only [addEvent, if_neg hfull, htab], hgrown,
      List.getElem?_eq_getElem hlt', rfl, contextAt_grow h hgrows⟩

/-- **`addEvent` of a running fiber** is for an event that nobody waits for.
The fiber waits for it afterwards, if the call succeeds, and the others wait
as before. -/
theorem addEvent_waiter (h : m.Wf) {scheduler f : Nat}
    (hrun : m.addEvent fd e none scheduler f ctl = .ok (ok, m')) :
    m'.Wf ∧ m'.scheduled = m.scheduled ∧ m.waiter fd e = none ∧ ∀ fd' e', m'.waiter fd' e' =
      if ok = true ∧ fd' = fd ∧ e' = e then some f else m.waiter fd' e' := by
  obtain ⟨m₁, c, hadd, h₁, hp, hsched, hcontext⟩ := addEvent_table h fd e none scheduler f ctl
  have hwaiter : ∀ fd e, m₁.waiter fd e = m.waiter fd e := by
    intro fd e
    rw [waiter_eq, waiter_eq, hcontext]
  rw [hadd] at hrun
  have hlt := (List.getElem?_eq_some_iff.mp hp).1
  have htab : m₁.fdContexts[fd]? = some fd := by simp [h₁.table, hlt]
  have hfree : c.events.has e = false := by
    by_contra hhas
    rw [Bool.not_eq_false] at hhas
    simp [register, hp, hhas] at hrun
  have hempty := (h₁.getElem_coherent hp).empty e hfree
  obtain ⟨ok', m'', hkept, hwf, -⟩ := register_spec h₁ hp hfree none scheduler f ctl
  rw [hkept] at hrun
  cases hrun
  have hnone : m.waiter fd e = none := by
    rw [← hwaiter, waiter_of_table hp htab, hempty]
    rfl
  cases ctl with
  | false =>
      simp only [register, hp, hfree, Bool.false_eq_true, if_false, Bool.not_false, if_true,
        Except.ok.injEq, Prod.mk.injEq] at hkept
      obtain ⟨rfl, rfl⟩ := hkept
      exact ⟨hwf, hsched, hnone, fun fd' e' => by simp [hwaiter]⟩
  | true =>
      simp only [register, hp, hfree, Bool.false_eq_true, if_false, Bool.not_true,
        FdContext.getContext_events, hempty, ne_eq, not_true_eq_false, Except.ok.injEq,
        Prod.mk.injEq] at hkept
      obtain ⟨rfl, rfl⟩ := hkept
      refine ⟨hwf, hsched, hnone, ?_⟩
      intro fd' e'
      rw [← hwaiter]
      by_cases hslot : fd' = fd ∧ e' = e
      · obtain ⟨rfl, rfl⟩ := hslot
        simp [waiter, lookup, setContext, epollCtl, htab, getElem?_set_self hp,
          EventContext.waiting]
      · rw [if_neg (fun hboth => hslot hboth.2)]
        by_cases he' : e' = e
        · have hfd' : fd' ≠ fd := fun heq => hslot ⟨heq, he'⟩
          unfold waiter
          rw [hwf.lookup_eq, h₁.lookup_eq]
          simp [setContext, epollCtl, List.getElem?_set_ne (Ne.symm hfd')]
        · exact waiter_set hp rfl rfl (by simp [he'])

/-- An `addEvent` whose `epoll_ctl` fails reports it. -/
theorem addEvent_fails (m : IoManager) (fd : Nat) (e : Event) (cb : Option Nat)
    (scheduler f : Nat) (m' : IoManager) :
    m.addEvent fd e cb scheduler f false ≠ .ok (true, m') := by
  intro hrun
  simp only [addEvent, register, Bool.not_false, if_true] at hrun
  repeat' split at hrun
  all_goals cases hrun

end IoManager

end Mingo
