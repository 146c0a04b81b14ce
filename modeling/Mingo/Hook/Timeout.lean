import Mingo.Hook.Bookkeeping

/-!
# Timeouts of hooked calls

A fiber that waits with a timeout is woken up by the callback of its timer,
which sets `tinfo->cancelled` and calls `cancelEvent`.  The timer is added before
the event is: a callback that gets ahead of `addEvent` finds nothing to cancel,
and the fiber then parks although nobody is left to wake it up.  The callback
of an earlier wait of the same invocation, taken out of `m_timers` before
`Timer::cancel` and run late, does the same to the next wait.

* `timeout_not_lost` -- as long as no `addEvent` comes after such a callback, and
  `cancelEvent` does its work, every fiber that is parked with a timeout has the
  timer or a callback of it ahead;
* `timeout_lost_before_addEvent` -- the fiber whose timer is ahead of its
  `addEvent`.
-/

namespace Mingo

namespace TimeoutState

/-- The callback has not looked at the flag yet. -/
def unread : TimeoutState → Bool
  | .pending | .queued | .locked => true
  | _ => false

/-- The callback has found the flag zero and has `cancelEvent` ahead. -/
def cancels : TimeoutState → Bool
  | .checked | .marked => true
  | _ => false

theorem cancels_eq_false {state : TimeoutState} (h : state.unread = true) :
    state.cancels = false := by
  cases state <;> first | rfl | cases h

end TimeoutState

namespace Hooks

/-- A callback of the invocation has its `cancelEvent` ahead. -/
def CancelAhead (s : Hooks) (info : Nat) : Prop :=
  ∃ t x, s.timeouts t = some x ∧ x.info = info ∧ x.state.cancels = true

/-- The timeout `t` of the invocation is still to come: its timer is pending or
its callback is queued or has begun, and the callback will find the flag zero;
or a callback of the invocation has found it so and is about to call
`cancelEvent`. -/
def TimeoutAhead (s : Hooks) (info t : Nat) : Prop :=
  s.CancelAhead info ∨
    s.cancelled info = 0 ∧ ∃ x, s.timeouts t = some x ∧ x.info = info ∧ x.state.unread = true

/-- The condition on a step: `addEvent` is not called when the callback that has
set the flag is done, and `epoll_ctl` does not fail for a callback that cancels
the event. -/
def InTime (s : Hooks) : Op → Prop
  | .fiber f (.addEvent ctl) => ctl = true → ∀ c, (s.phase f).call = some c →
      s.cancelled c.info = 0 ∨ s.CancelAhead c.info
  | .timeout t ctl => ∀ x, s.timeouts t = some x → x.state = .marked → ctl = true
  | _ => True

/-- Every invocation that still counts on its timeout has it ahead. -/
def Timely (s : Hooks) : Prop :=
  ∀ f c t, (s.phase f).call = some c → (s.phase f).timer = some t → (s.phase f).awaits = true →
    (s.cancelled c.info = 0 ∨ (s.phase f).waits = true ∧ s.io.waiter c.fd c.event = some f) →
      s.TimeoutAhead c.info t

variable {s s' : Hooks} {f : Nat} {c : HookedCall}

/-! ### What is ahead stays ahead -/

theorem TimeoutAhead.congr {info t : Nat} (h : s.TimeoutAhead info t)
    (htimeouts : s'.timeouts = s.timeouts) (hcancelled : s'.cancelled info = s.cancelled info) :
    s'.TimeoutAhead info t := by
  unfold TimeoutAhead CancelAhead
  rw [htimeouts, hcancelled]
  exact h

/-- A callback that goes on, or one of another invocation. -/
theorem TimeoutAhead.setTimer {info t t' : Nat} {x : Timeout} {state : TimeoutState}
    (h : s.TimeoutAhead info t) (hx : s.timeouts t' = some x)
    (hstate : x.info = info → (x.state.unread = true → state.unread = true ∨ state.cancels = true) ∧
      (x.state.cancels = true → state.cancels = true)) :
    (s.setTimer t' { x with state := state }).TimeoutAhead info t := by
  rcases h with ⟨u, y, hy, hinfo, hcancels⟩ | ⟨hzero, y, hy, hinfo, hunread⟩
  · by_cases hu : u = t'
    · subst hu
      rw [hx] at hy
      cases hy
      exact .inl ⟨u, _, timeouts_setTimer_self _ _ _, hinfo, (hstate hinfo).2 hcancels⟩
    · exact .inl ⟨u, y, (timeouts_setTimer_of_ne hu s _).trans hy, hinfo, hcancels⟩
  · by_cases ht : t = t'
    · subst ht
      rw [hx] at hy
      cases hy
      rcases (hstate hinfo).1 hunread with hunread' | hcancels
      · exact .inr ⟨hzero, _, timeouts_setTimer_self _ _ _, hinfo, hunread'⟩
      · exact .inl ⟨t, _, timeouts_setTimer_self _ _ _, hinfo, hcancels⟩
    · exact .inr ⟨hzero, y, (timeouts_setTimer_of_ne ht s _).trans hy, hinfo, hunread⟩

theorem TimeoutAhead.newTimer {info t t' : Nat} {x : Timeout} (h : s.TimeoutAhead info t)
    (hnew : s.timeouts t' = none) : (s.setTimer t' x).TimeoutAhead info t := by
  have hold : ∀ u y, s.timeouts u = some y → (s.setTimer t' x).timeouts u = some y := by
    intro u y hy
    have hu : u ≠ t' := by
      intro heq
      rw [heq, hnew] at hy
      cases hy
    exact (timeouts_setTimer_of_ne hu s x).trans hy
  rcases h with ⟨u, y, hy, hinfo, hcancels⟩ | ⟨hzero, y, hy, hinfo, hunread⟩
  · exact .inl ⟨u, y, hold u y hy, hinfo, hcancels⟩
  · exact .inr ⟨hzero, y, hold t y hy, hinfo, hunread⟩

/-- An invocation cancels its own timer only. -/
theorem TimeoutAhead.cancelTimer {info t : Nat} (h : s.TimeoutAhead info t) (hb : s.Booked)
    (hc : (s.phase f).call = some c) (hinfo : c.info ≠ info) :
    (s.cancelTimer (s.phase f).timer).TimeoutAhead info t := by
  cases htimer : (s.phase f).timer with
  | none => exact h
  | some t' =>
      obtain ⟨x, hx, hxinfo⟩ := hb.timer f c t' hc htimer
      simp only [Hooks.cancelTimer, hx]
      split
      · exact h.setTimer hx (fun heq => absurd (hxinfo.symm.trans heq) hinfo)
      · exact h

theorem cancelled_setInfo_of_ne {p info : Nat} (h : info ≠ p) (s : Hooks) (i : TimerInfo) :
    (s.setInfo p i).cancelled info = s.cancelled info := by
  unfold Hooks.cancelled
  rw [infos_setInfo_of_ne h]

/-- Who holds a `timer_info` does not matter for its flag. -/
theorem cancelled_setInfo {p info : Nat} {i i' : TimerInfo} (hp : s.infos p = some i)
    (hflag : i'.cancelled = i.cancelled) : (s.setInfo p i').cancelled info = s.cancelled info := by
  by_cases h : info = p
  · subst h
    simp [Hooks.cancelled, hp, hflag]
  · exact cancelled_setInfo_of_ne h s i'

theorem cancelled_leave (s : Hooks) (f info : Nat) (c : HookedCall) :
    (s.leave f c).cancelled info = s.cancelled info := by
  unfold Hooks.cancelled Hooks.leave
  by_cases h : info = c.info
  · subst h
    simp only [Function.update_self, Option.map_map]
    rfl
  · simp only [Function.update_of_ne h]

theorem infos_cancelTimer (s : Hooks) (timer : Option Nat) :
    (s.cancelTimer timer).infos = s.infos := by
  unfold Hooks.cancelTimer
  repeat' split
  all_goals rfl

/-! ### Steps of a fiber -/

/-- The other fibers keep what they count on, and the fiber that moves has its
timeout ahead. -/
theorem Timely.moved (h : s.Timely) (hphase : ∀ g, g ≠ f → s'.phase g = s.phase g)
    (hothers : ∀ g c t, g ≠ f → (s.phase g).call = some c →
      s'.cancelled c.info = s.cancelled c.info ∧
      (s'.io.waiter c.fd c.event = some g → s.io.waiter c.fd c.event = some g) ∧
      (s.TimeoutAhead c.info t → s'.TimeoutAhead c.info t))
    (hself : ∀ c t, (s'.phase f).call = some c → (s'.phase f).timer = some t →
      (s'.phase f).awaits = true → (s'.cancelled c.info = 0 ∨
        (s'.phase f).waits = true ∧ s'.io.waiter c.fd c.event = some f) →
          s'.TimeoutAhead c.info t) : s'.Timely := by
  intro g c t hc htimer hawaits hcounts
  by_cases hg : g = f
  · subst hg
    exact hself c t hc htimer hawaits hcounts
  · rw [hphase g hg] at hc htimer hawaits hcounts
    obtain ⟨hcancelled, hwaiter, hahead⟩ := hothers g c t hg hc
    refine hahead (h g c t hc htimer hawaits ?_)
    rcases hcounts with hzero | ⟨hwaits, hw⟩
    · exact .inl (hcancelled.symm.trans hzero)
    · exact .inr ⟨hwaits, hwaiter hw⟩

/-- **Step of a fiber.** -/
theorem Moved.timely (h : s.Timely) (hb : s.Booked) (hq : s.Queued) (hmoved : Moved s f s')
    (hok : ∀ c timer, s.phase f = .armed c timer → s'.phase f = .registered c timer →
      s.cancelled c.info = 0 ∨ s.CancelAhead c.info) : s'.Timely := by
  cases hmoved with
  | stay => exact h
  | enter c p hnew hp =>
      refine h.moved (fun g hg => phase_setPhase_of_ne hg _ p) ?_ ?_
      · intro g c' t hg hc'
        have hne : c'.info ≠ c.info := by
          intro heq
          obtain ⟨i, hi, -⟩ := hb.owned g c' hc'
          rw [heq, hnew] at hi
          cases hi
        have hcancelled := cancelled_setInfo_of_ne hne s ⟨0, true, 0⟩
        exact ⟨hcancelled, id, fun hahead => hahead.congr rfl hcancelled⟩
      · intro c' t _ _ hawaits
        rw [phase_setPhase_self] at hawaits
        rcases hp with rfl | rfl <;> cases hawaits
  | leave c hc =>
      refine h.moved (f := f) ?_ ?_ ?_
      · intro g hg
        rw [phase_leave_of_ne hg, phase_cancelTimer]
      · intro g c' t hg hc'
        have hne : c.info ≠ c'.info := fun heq => hg (hb.distinct g f c' c hc' hc heq.symm)
        have hcancelled : ((s.cancelTimer (s.phase f).timer).leave f c).cancelled c'.info =
            s.cancelled c'.info := by
          rw [cancelled_leave, Hooks.cancelled, infos_cancelTimer]
          rfl
        refine ⟨hcancelled, ?_, ?_⟩
        · intro hw
          rwa [← io_cancelTimer s (s.phase f).timer]
        · intro hahead
          exact (hahead.cancelTimer hb hc hne).congr rfl (cancelled_leave _ f _ c)
      · intro c' t hc'
        simp only [Hooks.leave, Function.update_self] at hc'
        cases hc'
  | next c p hc hnext =>
      refine h.moved (f := f) ?_ ?_ ?_
      · intro g hg
        rw [phase_setPhase_of_ne hg, phase_cancelTimer]
      · intro g c' t hg hc'
        have hne : c.info ≠ c'.info := fun heq => hg (hb.distinct g f c' c hc' hc heq.symm)
        refine ⟨?_, ?_, ?_⟩
        · show (s.cancelTimer (s.phase f).timer).cancelled c'.info = s.cancelled c'.info
          rw [Hooks.cancelled, infos_cancelTimer]
          rfl
        · intro hw
          rwa [← io_cancelTimer s (s.phase f).timer]
        · intro hahead
          exact (hahead.cancelTimer hb hc hne).congr rfl rfl
      · intro c' t _ htimer'
        rw [phase_setPhase_self, hnext.untimed.2.1] at htimer'
        cases htimer'
  | untimed c hp hforever =>
      refine h.moved (fun g hg => phase_setPhase_of_ne hg _ _)
        (fun g c' t _ _ => ⟨rfl, id, fun hahead => hahead.congr rfl rfl⟩) ?_
      intro c' t _ htimer'
      rw [phase_setPhase_self] at htimer'
      cases htimer'
  | arm c t hp hnew =>
      refine h.moved (fun g hg => phase_setPhase_of_ne hg _ _)
        (fun g c' t' _ _ => ⟨rfl, id, fun hahead => (hahead.newTimer hnew).congr rfl rfl⟩) ?_
      intro c' t' hc' htimer' _ hcounts
      rw [phase_setPhase_self] at hc' htimer' hcounts
      cases hc'
      cases htimer'
      rcases hcounts with hzero | ⟨hwaits, -⟩
      · exact .inr ⟨hzero, _, timeouts_setTimer_self s t _, rfl, rfl⟩
      · cases hwaits
  | register c timer ctl ok io hp hadd =>
      obtain ⟨-, -, hfree, hwaiter⟩ := IoManager.addEvent_waiter hq.io hadd
      refine h.moved (fun g hg => phase_setPhase_of_ne hg _ _) ?_ ?_
      · intro g d t hg hd
        refine ⟨rfl, ?_, fun hahead => hahead.congr rfl rfl⟩
        intro hw
        have hw' := (hwaiter d.fd d.event).symm.trans hw
        split at hw'
        · exact absurd (Option.some.inj hw').symm hg
        · exact hw'
      · intro d t hd htimer hawaits hcounts
        rw [phase_setPhase_self] at hd htimer hawaits hcounts
        cases ok with
        | false => cases hawaits
        | true =>
            obtain rfl : d = c := (Option.some.inj hd).symm
            obtain rfl : timer = some t := htimer
            have hzero : s.cancelled d.info = 0 → s.TimeoutAhead d.info t := fun hzero =>
              h f d t (by rw [hp]; rfl) (by rw [hp]; rfl) (by rw [hp]; rfl) (.inl hzero)
            rcases hok d (some t) hp (phase_setPhase_self _ _ _) with hflag | hcancel
            · exact (hzero hflag).congr rfl rfl
            · exact .inl hcancel
  | yield c timer hp =>
      refine h.moved (fun g hg => phase_setPhase_of_ne hg _ _)
        (fun g c' t _ _ => ⟨rfl, id, fun hahead => hahead.congr rfl rfl⟩) ?_
      intro c' t hc' htimer hawaits hcounts
      rw [phase_setPhase_self] at hc' htimer hawaits hcounts
      have hahead : s.TimeoutAhead c'.info t :=
        h f c' t (by rw [hp]; exact hc') (by rw [hp]; exact htimer) (by rw [hp]; rfl)
          (by rw [hp]; exact hcounts)
      exact hahead.congr rfl rfl
  | resume c timer hp =>
      refine h.moved (fun g hg => phase_setPhase_of_ne hg _ _)
        (fun g c' t _ _ => ⟨rfl, id, fun hahead => hahead.congr rfl rfl⟩) ?_
      intro c' t _ _ hawaits
      rw [phase_setPhase_self] at hawaits
      cases hawaits
  | close fds io p hold hp hio =>
      obtain ⟨-, hwakes⟩ := hio hq.io
      refine h.moved (fun g hg => phase_setPhase_of_ne hg _ _)
        (fun g c' t _ _ => ⟨rfl, hwakes.waited, fun hahead => hahead.congr rfl rfl⟩) ?_
      intro c' t hc'
      rw [phase_setPhase_self, hp] at hc'
      cases hc'

/-! ### Steps of a callback -/

theorem setInfo_self {p : Nat} {i : TimerInfo} (hp : s.infos p = some i) : s.setInfo p i = s := by
  unfold Hooks.setInfo
  rw [← hp, Function.update_eq_self]

/-- A callback matters to the invocation it was made for. -/
theorem Timely.fired (h : s.Timely) (io : IoManager) {t : Nat} {x : Timeout} {i : TimerInfo}
    {state : TimeoutState} (ht : s.timeouts t = some x)
    (hio : ∀ fd e g, io.waiter fd e = some g → s.io.waiter fd e = some g)
    (hown : ∀ g c u, (s.phase g).call = some c → x.info = c.info → (s.phase g).timer = some u →
      (s.phase g).awaits = true →
      (i.cancelled = 0 ∨ (s.phase g).waits = true ∧ io.waiter c.fd c.event = some g) →
        (((s.setIo io).setInfo x.info i).setTimer t { x with state := state }).TimeoutAhead
          c.info u) :
    (((s.setIo io).setInfo x.info i).setTimer t { x with state := state }).Timely := by
  intro g c u hc hu hawaits hcounts
  by_cases hinfo : x.info = c.info
  · refine hown g c u hc hinfo hu hawaits ?_
    have hflag : (((s.setIo io).setInfo x.info i).setTimer t { x with state := state }).cancelled
        c.info = i.cancelled := by
      rw [← hinfo]
      simp [Hooks.cancelled, Hooks.setTimer]
    rwa [hflag] at hcounts
  · have hflag : ((s.setIo io).setInfo x.info i).cancelled c.info = s.cancelled c.info :=
      cancelled_setInfo_of_ne (Ne.symm hinfo) _ i
    have hcounts' : s.cancelled c.info = 0 ∨
        (s.phase g).waits = true ∧ s.io.waiter c.fd c.event = some g := by
      rcases hcounts with hzero | ⟨hwaits, hw⟩
      · exact .inl (hflag.symm.trans hzero)
      · exact .inr ⟨hwaits, hio _ _ _ hw⟩
    have hahead : ((s.setIo io).setInfo x.info i).TimeoutAhead c.info u :=
      (h g c u hc hu hawaits hcounts').congr rfl hflag
    exact hahead.setTimer ht (fun heq => absurd heq hinfo)

/-- A callback that goes on to its `cancelEvent`, or has not come so far. -/
theorem Timely.advance (h : s.Timely) (state : TimeoutState) {t : Nat} {x : Timeout}
    {i i' : TimerInfo} (ht : s.timeouts t = some x) (hi : s.infos x.info = some i)
    (hflag : i'.cancelled = i.cancelled) (hunread : x.state.unread = true)
    (hstate : state.unread = true ∨ state.cancels = true) :
    ((s.setInfo x.info i').setTimer t { x with state := state }).Timely := by
  refine h.fired s.io ht (fun fd e g hw => hw) ?_
  intro g c u hc hinfo hu hawaits hcounts
  have hsame : s.cancelled c.info = i'.cancelled := by
    rw [hflag, ← hinfo]
    simp [Hooks.cancelled, hi]
  rw [← hsame] at hcounts
  have hahead : (s.setInfo x.info i').TimeoutAhead c.info u :=
    (h g c u hc hu hawaits hcounts).congr rfl (cancelled_setInfo hi hflag)
  refine hahead.setTimer ht ?_
  intro _
  refine ⟨fun _ => hstate, ?_⟩
  intro hcancels
  rw [TimeoutState.cancels_eq_false hunread] at hcancels
  cases hcancels

/-- **Step of a timer or its callback.** -/
theorem Timely.fire (h : s.Timely) (hb : s.Booked) (hq : s.Queued) {t : Nat} {ctl : Bool}
    {x : Timeout} {i : TimerInfo} (ht : s.timeouts t = some x) (hi : s.infos x.info = some i)
    (hctl : x.state = .marked → ctl = true) (hfire : s.fire t ctl x i = some s') :
    s'.Timely := by
  have hflag : s.cancelled x.info = i.cancelled := by simp [Hooks.cancelled, hi]
  unfold Hooks.fire at hfire
  split at hfire
  · rename_i hstate
    cases hfire
    have hnext := h.advance .queued ht hi rfl (by rw [hstate]; rfl) (.inl rfl)
    rwa [setInfo_self hi] at hnext
  · rename_i hstate
    split at hfire
    · rename_i hexpired
      cases hfire
      have hnext : (((s.setIo s.io).setInfo x.info i).setTimer t
          { x with state := .executed }).Timely := by
        refine h.fired s.io ht (fun fd e g hw => hw) ?_
        -- the `timer_info` of an invocation in flight cannot be gone
        intro g c u hc hinfo
        obtain ⟨j, hj, howned⟩ := hb.owned g c hc
        rw [← hinfo, hi] at hj
        cases hj
        simp [TimerInfo.expired, howned] at hexpired
      rwa [show s.setIo s.io = s from rfl, setInfo_self hi] at hnext
    · cases hfire
      exact h.advance _ ht hi rfl (by rw [hstate]; rfl) (.inl rfl)
  · rename_i hstate
    split at hfire
    · rename_i hset
      cases hfire
      refine h.fired s.io ht (fun fd e g hw => hw) ?_
      intro g c u hc hinfo hu hawaits hcounts
      -- another callback has set the flag; it is not this one
      have hset' : s.cancelled c.info ≠ 0 := by rwa [← hinfo, hflag]
      have hahead := h g c u hc hu hawaits (.inr (hcounts.resolve_left hset))
      rcases hahead with ⟨t', y, hy, hyinfo, hcancels⟩ | ⟨hzero, -⟩
      · have hne : t' ≠ t := by
          intro heq
          rw [heq, ht] at hy
          cases hy
          rw [hstate] at hcancels
          cases hcancels
        exact .inl ⟨t', y, (timeouts_setTimer_of_ne hne _ _).trans hy, hyinfo, hcancels⟩
      · exact absurd hzero hset'
    · cases hfire
      have hnext := h.advance .checked ht hi rfl (by rw [hstate]; rfl) (.inr rfl)
      rwa [setInfo_self hi] at hnext
  · cases hfire
    refine h.fired s.io ht (fun fd e g hw => hw) ?_
    intro g c u hc hinfo hu hawaits hcounts
    exact .inl ⟨t, _, timeouts_setTimer_self _ _ _, hinfo, rfl⟩
  · rename_i hstate
    obtain ⟨⟨ok, io⟩, hcancel, heq⟩ := Option.map_eq_some_iff.mp hfire
    cases heq
    have hcancel' := toOption_eq_some hcancel
    rw [hctl hstate] at hcancel'
    obtain ⟨-, hwakes⟩ := IoManager.cancelEvent_wakes hq.io hcancel'
    refine h.fired io ht (fun fd e g hw => hwakes.waited hw) ?_
    intro g c u hc hinfo hu hawaits hcounts
    -- nobody waits for the event any more, and the flag is set
    obtain ⟨j, hj, hset⟩ := hb.allocated t x ht
    rw [hi] at hj
    cases hj
    obtain ⟨-, hw⟩ := hcounts.resolve_left (hset hstate)
    obtain ⟨hfd, hevent⟩ := hb.captured g c t x hc ht hinfo
    rw [← hfd, ← hevent, IoManager.cancelEvent_waiter hq.io hcancel'] at hw
    cases hw
  · cases hfire
  · cases hfire

/-! ### Runs -/

/-- An `addEvent` that registers the fiber is one whose `epoll_ctl` succeeds. -/
theorem act_registered {a : Act} {o : Out} {timer : Option Nat}
    (hp : s.phase f = .armed c timer) (h : s.act f a (s.phase f) = some (o, s'))
    (hp' : s'.phase f = .registered c timer) : a = .addEvent true := by
  rw [hp] at h
  cases a with
  | addEvent ctl =>
      cases ctl with
      | true => rfl
      | false =>
          obtain ⟨⟨ok, io⟩, hadd, heq⟩ := Option.map_eq_some_iff.mp h
          cases heq
          cases ok with
          | false =>
              rw [phase_setPhase_self] at hp'
              cases hp'
          | true =>
              exact absurd (toOption_eq_some hadd) (IoManager.addEvent_fails s.io _ _ _ _ _ io)
  | _ => cases h

/-- **Step lemma.**  Every step that meets the condition keeps the timeouts. -/
theorem step_timely {op : Op} {o : Out} (h : s.Timely) (hb : s.Booked) (hq : s.Queued)
    (hok : s.InTime op) (hstep : step s op = some (o, s')) : s'.Timely := by
  rcases step_cases hstep with ⟨f, a, rfl, hmoved⟩ | ⟨t, ctl, x, i, rfl, ht, hi, hfire⟩ |
    ⟨fds, io, rfl, hio⟩
  · refine hmoved.timely h hb hq ?_
    intro c timer hp hp'
    obtain rfl := act_registered hp hstep hp'
    exact hok rfl c (by rw [hp]; rfl)
  · exact h.fire hb hq ht hi (hok x ht) hfire
  · obtain ⟨-, hwakes⟩ := hio hq.io
    intro g c t hc htimer hawaits hcounts
    refine (h g c t hc htimer hawaits ?_).congr rfl rfl
    rcases hcounts with hzero | ⟨hwaits, hw⟩
    · exact .inl hzero
    · exact .inr ⟨hwaits, hwakes.waited hw⟩

theorem timely_new : new.Timely := nofun

/-- **No timeout is lost.**  In every run in which no `addEvent` is called after
a callback of the invocation has set the flag and returned, and in which
`epoll_ctl` does not fail for such a callback: whenever a fiber is parked in
`do_io` or `connect_with_timeout` with a finite timeout, and has not been handed
to a scheduler, its timeout is still to come. -/
theorem timeout_not_lost (ops : List Op) (outs : List Out) (s : Hooks)
    (hmeets : Machine.Meets step InTime new ops) (hrun : Machine.run step new ops = some (outs, s))
    (f : Nat) (c : HookedCall) (timer : Option Nat) (hparked : s.phase f = .parked c timer)
    (hfinite : c.timeout ≠ -1) (hwaits : Task.fiber f ∉ s.io.tasks) :
    ∃ t, timer = some t ∧ s.TimeoutAhead c.info t := by
  have hstep : ∀ (s : Hooks) (op : Op) (o : Out) (s' : Hooks),
      (s.Timely ∧ s.Booked ∧ s.Queued) → s.InTime op → step s op = some (o, s') →
        (s'.Timely ∧ s'.Booked ∧ s'.Queued) ∧ True := by
    intro s op o s' hinv hok hstep
    obtain ⟨h, hb, hq⟩ := hinv
    exact ⟨⟨step_timely h hb hq hok hstep, step_booked hb hstep, step_queued hq hstep⟩, trivial⟩
  obtain ⟨⟨h, hb, hq⟩, -⟩ := Machine.run_invariant_of_meets hstep
    ⟨timely_new, booked_new, queued_new⟩ hmeets hrun
  have hcall : (s.phase f).call = some c := by
    rw [hparked]
    rfl
  cases timer with
  | none =>
      have hforever := hb.timed f c hcall (by rw [hparked]; rfl) (by rw [hparked]; rfl)
      exact absurd hforever hfinite
  | some t =>
      have hwaiter := (hq.waits f c hcall (by rw [hparked]; rfl)).resolve_right hwaits
      refine ⟨t, rfl, h f c t hcall (by rw [hparked]; rfl) (by rw [hparked]; rfl)
        (.inr ⟨?_, hwaiter⟩)⟩
      rw [hparked]
      rfl

/-- The flag is zero whenever `addEvent` is called, and `epoll_ctl` never fails for
a callback. -/
def prompt (s : Hooks) : Op → Bool
  | .fiber f (.addEvent _) => (s.phase f).call.all fun c => s.cancelled c.info == 0
  | .timeout _ ctl => ctl
  | _ => true

theorem inTime_of_prompt (s : Hooks) (op : Op) (h : s.prompt op = true) : s.InTime op := by
  unfold InTime
  split
  · rename_i f ctl
    intro _ c hc
    simp only [prompt, hc, Option.all_some, beq_iff_eq] at h
    exact .inl h
  · intro x _ _
    exact h
  · trivial

/-- Fiber 1 reads from socket 5 with a timeout of 10 ms and waits; its timer has
expired. -/
def waitsForTimeout : List Op :=
  [.socket 5 ⟨true, 2#32⟩, .manage (.get 5), .setTimeout 5 .read 10, .fiber 1 (.doIo 5 .read 0),
    .fiber 1 (.call .wouldBlock), .fiber 1 (.addConditionTimer 0), .fiber 1 (.addEvent true),
    .fiber 1 .yieldToHold, .timeout 0 true]

theorem timeout_not_lost_waiting :
    ∃ outs s, Machine.run step new waitsForTimeout = some (outs, s) ∧
      s.phase 1 = .parked ⟨.doIo, 5, .read, 10, 0⟩ (some 0) ∧ s.TimeoutAhead 0 0 := by
  have hprompt : Machine.Meets step (fun s op => s.prompt op = true) new waitsForTimeout := by
    decide
  have hend : (Machine.run step new waitsForTimeout).any (fun r =>
      r.2.phase 1 = .parked ⟨.doIo, 5, .read, 10, 0⟩ (some 0) ∧ r.2.io.tasks = []) = true := by
    decide
  obtain ⟨⟨outs, s⟩, hrun, hstate⟩ := (Option.any_eq_true _ _).mp hend
  obtain ⟨hparked, htasks⟩ := of_decide_eq_true hstate
  have hwaits : Task.fiber 1 ∉ s.io.tasks := by
    rw [htasks]
    exact nofun
  obtain ⟨t, ht, hahead⟩ := timeout_not_lost waitsForTimeout outs s
    (hprompt.mono inTime_of_prompt) hrun 1 _ _ hparked nofun hwaits
  cases ht
  exact ⟨outs, s, hrun, hparked, hahead⟩

/-- The same, but the callback of the timer runs before `addEvent`. -/
def timeoutBeforeAddEvent : List Op :=
  [.socket 5 ⟨true, 2#32⟩, .manage (.get 5), .setTimeout 5 .read 10, .fiber 1 (.doIo 5 .read 0),
    .fiber 1 (.call .wouldBlock), .fiber 1 (.addConditionTimer 0), .timeout 0 true,
    .timeout 0 true, .timeout 0 true, .timeout 0 true, .timeout 0 true,
    .fiber 1 (.addEvent true), .fiber 1 .yieldToHold]

theorem timeouts_before_addEvent (n : Nat) :
    (Machine.run step new timeoutBeforeAddEvent).map (fun r => r.2.timeouts (n + 1)) = some none :=
  rfl

/-- **The timeout that is lost.**  The fiber is parked, no timer is pending and
no callback is left. -/
theorem timeout_lost_before_addEvent :
    ¬ ∀ ops outs s, Machine.run step new ops = some (outs, s) →
      ∀ f c timer, s.phase f = .parked c timer → c.timeout ≠ -1 → Task.fiber f ∉ s.io.tasks →
        ∃ t x, s.timeouts t = some x ∧ x.info = c.info ∧ x.state ≠ .executed ∧
          x.state ≠ .cancelled := by
  intro hall
  have hend : (Machine.run step new timeoutBeforeAddEvent).any (fun r =>
      r.2.phase 1 = .parked ⟨.doIo, 5, .read, 10, 0⟩ (some 0) ∧ r.2.io.tasks = [] ∧
        r.2.timeouts 0 = some ⟨0, 5, .read, .executed⟩) = true := by
    decide
  obtain ⟨⟨outs, s⟩, hrun, hstate⟩ := (Option.any_eq_true _ _).mp hend
  obtain ⟨hparked, htasks, hexecuted⟩ := of_decide_eq_true hstate
  have hwaits : Task.fiber 1 ∉ s.io.tasks := by
    rw [htasks]
    exact nofun
  obtain ⟨t, x, hx, -, hstate, -⟩ := hall _ outs s hrun 1 _ _ hparked nofun hwaits
  cases t with
  | zero =>
      rw [hexecuted] at hx
      cases hx
      exact hstate rfl
  | succ n =>
      have hnone := timeouts_before_addEvent n
      rw [hrun] at hnone
      cases hx.symm.trans (Option.some.inj hnone)

end Hooks

end Mingo
