import Mingo.Hook.Calls

/-!
# Fibers, timer_infos and timers refer to each other

Every invocation in flight owns its `timer_info`, and no other invocation uses
it; the timers made for it have captured its descriptor and its event
(`Booked`).  A fiber between `addEvent` and its wake-up is in the event table
or has been handed to a scheduler (`Queued`).

* `act_moved` -- what a step of a fiber can do;
* `step_booked`, `step_queued` -- both are kept by every step.
-/

namespace Mingo

namespace Hooks

/-- What the phases, the `timer_info`s and the timers say about each other. -/
structure Booked (s : Hooks) : Prop where
  owned : ∀ f c, (s.phase f).call = some c → ∃ i, s.infos c.info = some i ∧ i.owned = true
  distinct : ∀ f f' c c', (s.phase f).call = some c → (s.phase f').call = some c' →
    c.info = c'.info → f = f'
  captured : ∀ f c t x, (s.phase f).call = some c → s.timeouts t = some x → x.info = c.info →
    x.fd = c.fd ∧ x.event = c.event
  allocated : ∀ t x, s.timeouts t = some x →
    ∃ i, s.infos x.info = some i ∧ (x.state = .marked → i.cancelled ≠ 0)
  timer : ∀ f c t, (s.phase f).call = some c → (s.phase f).timer = some t →
    ∃ x, s.timeouts t = some x ∧ x.info = c.info
  timed : ∀ f c, (s.phase f).call = some c → (s.phase f).awaits = true →
    (s.phase f).timer = none → c.timeout = -1

/-- A fiber that waits is in the event table or about to be run. -/
structure Queued (s : Hooks) : Prop where
  io : s.io.Wf
  waits : ∀ f c, (s.phase f).call = some c → (s.phase f).waits = true →
    s.io.waiter c.fd c.event = some f ∨ Task.fiber f ∈ s.io.tasks

variable {s s' : Hooks} {f : Nat} {c : HookedCall}

/-- The fiber has the phase that is written, -/
@[simp]
theorem phase_setPhase_self (s : Hooks) (f : Nat) (p : HookPhase) :
    (s.setPhase f p).phase f = p := by
  simp only [Hooks.setPhase, Function.update_self]

/-- and the other fibers keep theirs. -/
theorem phase_setPhase_of_ne {f f' : Nat} (h : f' ≠ f) (s : Hooks) (p : HookPhase) :
    (s.setPhase f p).phase f' = s.phase f' := by
  simp only [Hooks.setPhase, Function.update_of_ne h]

/-- The `timer_info` is the one that is written, -/
@[simp]
theorem infos_setInfo_self (s : Hooks) (p : Nat) (i : TimerInfo) :
    (s.setInfo p i).infos p = some i := by
  simp only [Hooks.setInfo, Function.update_self]

/-- and the others stay. -/
theorem infos_setInfo_of_ne {p p' : Nat} (h : p' ≠ p) (s : Hooks) (i : TimerInfo) :
    (s.setInfo p i).infos p' = s.infos p' := by
  simp only [Hooks.setInfo, Function.update_of_ne h]

/-- The timer is the one that is written, -/
@[simp]
theorem timeouts_setTimer_self (s : Hooks) (t : Nat) (x : Timeout) :
    (s.setTimer t x).timeouts t = some x := by
  simp only [Hooks.setTimer, Function.update_self]

/-- and the others stay. -/
theorem timeouts_setTimer_of_ne {t t' : Nat} (h : t' ≠ t) (s : Hooks) (x : Timeout) :
    (s.setTimer t x).timeouts t' = s.timeouts t' := by
  simp only [Hooks.setTimer, Function.update_of_ne h]

/-! ### Bookkeeping -/

/-- In the beginning no fiber is in a call. -/
theorem booked_new : new.Booked := by
  constructor <;> simp [new, HookPhase.call]

/-- The invariant is about the fibers, their `timer_info` and the timers only. -/
theorem Booked.congr (h : s.Booked) (hphase : s'.phase = s.phase) (hinfos : s'.infos = s.infos)
    (htimeouts : s'.timeouts = s.timeouts) : s'.Booked := by
  obtain ⟨fds, io, phase, infos, timeouts⟩ := s
  obtain ⟨fds', io', phase', infos', timeouts'⟩ := s'
  obtain ⟨rfl, rfl, rfl⟩ : phase' = phase ∧ infos' = infos ∧ timeouts' = timeouts :=
    ⟨hphase, hinfos, htimeouts⟩
  exact ⟨h.owned, h.distinct, h.captured, h.allocated, h.timer, h.timed⟩

/-- A fiber goes on with its invocation, or leaves none behind. -/
theorem Booked.setPhase (h : s.Booked) {p : HookPhase}
    (hcall : ∀ c, p.call = some c → (s.phase f).call = some c)
    (htimer : ∀ t, p.timer = some t → (s.phase f).timer = some t)
    (htimed : p.awaits = true → p.timer = none →
      (s.phase f).awaits = true ∧ (s.phase f).timer = none ∨
        ∀ c, p.call = some c → c.timeout = -1) : (s.setPhase f p).Booked := by
  have hcalls : ∀ g c, ((s.setPhase f p).phase g).call = some c → (s.phase g).call = some c := by
    intro g c hc
    by_cases hg : g = f
    · subst hg
      rw [phase_setPhase_self] at hc
      exact hcall c hc
    · rwa [phase_setPhase_of_ne hg] at hc
  refine ⟨fun g c hc => h.owned g c (hcalls g c hc),
    fun g g' c c' hc hc' => h.distinct g g' c c' (hcalls g c hc) (hcalls g' c' hc'),
    fun g c t x hc => h.captured g c t x (hcalls g c hc), h.allocated, ?_, ?_⟩
  · intro g c t hc ht
    by_cases hg : g = f
    · subst hg
      rw [phase_setPhase_self] at hc ht
      exact h.timer g c t (hcall c hc) (htimer t ht)
    · rw [phase_setPhase_of_ne hg] at hc ht
      exact h.timer g c t hc ht
  · intro g c hc hawaits hnone
    by_cases hg : g = f
    · subst hg
      rw [phase_setPhase_self] at hc hawaits hnone
      rcases htimed hawaits hnone with ⟨hold, hold'⟩ | hforever
      · exact h.timed g c (hcall c hc) hold hold'
      · exact hforever c hc
    · rw [phase_setPhase_of_ne hg] at hc hawaits hnone
      exact h.timed g c hc hawaits hnone

/-- A fiber that takes up no invocation. -/
theorem Booked.setPhase_none (h : s.Booked) {p : HookPhase} (hcall : p.call = none)
    (htimer : p.timer = none) (hawaits : p.awaits = false) : (s.setPhase f p).Booked := by
  refine h.setPhase ?_ ?_ ?_
  · intro c hc
    rw [hcall] at hc
    cases hc
  · intro t ht
    rw [htimer] at ht
    cases ht
  · intro htrue
    rw [hawaits] at htrue
    cases htrue

/-- A fiber without a timer goes on with its invocation. -/
theorem Booked.setPhase_untimed (h : s.Booked) {p : HookPhase}
    (hcall : p.call = (s.phase f).call) (htimer : p.timer = none) (hawaits : p.awaits = false) :
    (s.setPhase f p).Booked := by
  refine h.setPhase (fun c hc => hcall.symm.trans hc) ?_ ?_
  · intro t ht
    rw [htimer] at ht
    cases ht
  · intro htrue
    rw [hawaits] at htrue
    cases htrue

/-- A `timer_info` keeps its owner, and its flag is not cleared. -/
theorem Booked.setInfo (h : s.Booked) {p : Nat} {i : TimerInfo} (i' : TimerInfo)
    (hp : s.infos p = some i) (howned : i'.owned = i.owned)
    (hflag : i.cancelled ≠ 0 → i'.cancelled ≠ 0) :
    (s.setInfo p i').Booked := by
  refine ⟨?_, h.distinct, h.captured, ?_, h.timer, h.timed⟩
  · intro g c hc
    obtain ⟨j, hj, hjowned⟩ := h.owned g c hc
    by_cases hinfo : c.info = p
    · rw [hinfo, hp] at hj
      cases hj
      exact ⟨i', by rw [hinfo, infos_setInfo_self], howned.trans hjowned⟩
    · exact ⟨j, by rw [infos_setInfo_of_ne hinfo, hj], hjowned⟩
  · intro t x hx
    obtain ⟨j, hj, hjflag⟩ := h.allocated t x hx
    by_cases hinfo : x.info = p
    · rw [hinfo, hp] at hj
      cases hj
      exact ⟨i', by rw [hinfo, infos_setInfo_self], fun hm => hflag (hjflag hm)⟩
    · exact ⟨j, by rw [infos_setInfo_of_ne hinfo, hj], hjflag⟩

/-- A `shared_ptr` of a `timer_info` comes or goes. -/
theorem Booked.setHolders (h : s.Booked) {p : Nat} {i : TimerInfo} (hp : s.infos p = some i)
    (n : Nat) : (s.setInfo p { i with holders := n }).Booked := h.setInfo _ hp rfl id

/-- A timer keeps what its callback has captured. -/
theorem Booked.setTimer (h : s.Booked) {t : Nat} {x : Timeout} (ht : s.timeouts t = some x)
    {state : TimeoutState}
    (hmarked : state = .marked → ∀ i, s.infos x.info = some i → i.cancelled ≠ 0) :
    (s.setTimer t { x with state := state }).Booked := by
  have hold : ∀ t' x', (s.setTimer t { x with state := state }).timeouts t' = some x' →
      ∃ y, s.timeouts t' = some y ∧ x'.info = y.info ∧ x'.fd = y.fd ∧ x'.event = y.event := by
    intro t' x' hx'
    by_cases htt : t' = t
    · subst htt
      rw [timeouts_setTimer_self] at hx'
      cases hx'
      exact ⟨x, ht, rfl, rfl, rfl⟩
    · rw [timeouts_setTimer_of_ne htt] at hx'
      exact ⟨x', hx', rfl, rfl, rfl⟩
  refine ⟨h.owned, h.distinct, ?_, ?_, ?_, h.timed⟩
  · intro g c t' x' hc hx' hinfo
    obtain ⟨y, hy, hyinfo, hyfd, hyevent⟩ := hold t' x' hx'
    rw [hyfd, hyevent]
    exact h.captured g c t' y hc hy (hyinfo.symm.trans hinfo)
  · intro t' x' hx'
    by_cases htt : t' = t
    · subst htt
      rw [timeouts_setTimer_self] at hx'
      cases hx'
      obtain ⟨i, hi, -⟩ := h.allocated t' x ht
      exact ⟨i, hi, fun hm => hmarked hm i hi⟩
    · rw [timeouts_setTimer_of_ne htt] at hx'
      exact h.allocated t' x' hx'
  · intro g c t' hc ht'
    obtain ⟨y, hy, hyinfo⟩ := h.timer g c t' hc ht'
    by_cases htt : t' = t
    · subst htt
      rw [ht] at hy
      cases hy
      exact ⟨_, timeouts_setTimer_self _ _ _, hyinfo⟩
    · exact ⟨y, by rw [timeouts_setTimer_of_ne htt, hy], hyinfo⟩

/-- Cancelling a timer moves no fiber. -/
theorem phase_cancelTimer (s : Hooks) (timer : Option Nat) :
    (s.cancelTimer timer).phase = s.phase := by
  unfold Hooks.cancelTimer
  repeat' split
  all_goals rfl

/-- A timer that is cancelled keeps what it has captured. -/
theorem Booked.cancelTimer (h : s.Booked) (timer : Option Nat) : (s.cancelTimer timer).Booked := by
  unfold Hooks.cancelTimer
  split
  · exact h
  · split
    · exact h
    · rename_i t x hx
      split
      · exact h.setTimer hx (fun hm => by cases hm)
      · exact h

/-- A call that returns moves its own fiber only. -/
theorem phase_leave_of_ne {f g : Nat} (h : g ≠ f) (s : Hooks) (c : HookedCall) :
    (s.leave f c).phase g = s.phase g := by
  simp only [Hooks.leave, Function.update_of_ne h]

/-- An invocation returns. -/
theorem Booked.leave (h : s.Booked) (hc : (s.phase f).call = some c) : (s.leave f c).Booked := by
  have hothers : ∀ g c', ((s.leave f c).phase g).call = some c' →
      (s.leave f c).phase g = s.phase g ∧ c'.info ≠ c.info := by
    intro g c' hc'
    by_cases hg : g = f
    · subst hg
      simp only [Hooks.leave, Function.update_self] at hc'
      cases hc'
    · have hsame := phase_leave_of_ne hg s c
      rw [hsame] at hc'
      exact ⟨hsame, fun heq => hg (h.distinct g f c' c hc' hc heq)⟩
  constructor
  · intro g c' hc'
    obtain ⟨hsame, hne⟩ := hothers g c' hc'
    rw [hsame] at hc'
    obtain ⟨i, hi, howned⟩ := h.owned g c' hc'
    exact ⟨i, (Function.update_of_ne hne _ _).trans hi, howned⟩
  · intro g g' c₁ c₂ hc₁ hc₂
    rw [(hothers g c₁ hc₁).1] at hc₁
    rw [(hothers g' c₂ hc₂).1] at hc₂
    exact h.distinct g g' c₁ c₂ hc₁ hc₂
  · intro g c' t x hc'
    rw [(hothers g c' hc').1] at hc'
    exact h.captured g c' t x hc'
  · intro t x hx
    obtain ⟨i, hi, hflag⟩ := h.allocated t x hx
    by_cases hinfo : x.info = c.info
    · refine ⟨{ i with owned := false }, ?_, hflag⟩
      rw [hinfo] at hi ⊢
      simp [Hooks.leave, hi]
    · exact ⟨i, (Function.update_of_ne hinfo _ _).trans hi, hflag⟩
  · intro g c' t hc'
    have hsame := (hothers g c' hc').1
    rw [hsame] at hc' ⊢
    exact h.timer g c' t hc'
  · intro g c' hc'
    have hsame := (hothers g c' hc').1
    rw [hsame] at hc' ⊢
    exact h.timed g c' hc'

/-- A fiber enters a function with a new `timer_info`. -/
theorem Booked.enter (h : s.Booked) {p : HookPhase} (hnew : s.infos c.info = none)
    (hcall : p.call = some c) (htimer : p.timer = none) (hawaits : p.awaits = false) :
    ((s.setInfo c.info ⟨0, true, 0⟩).setPhase f p).Booked := by
  have hfresh : ∀ g c', (s.phase g).call = some c' → c'.info ≠ c.info := by
    intro g c' hc' heq
    obtain ⟨i, hi, -⟩ := h.owned g c' hc'
    rw [heq, hnew] at hi
    cases hi
  have hunused : ∀ t x, s.timeouts t = some x → x.info ≠ c.info := by
    intro t x hx heq
    obtain ⟨i, hi, -⟩ := h.allocated t x hx
    rw [heq, hnew] at hi
    cases hi
  have hcases : ∀ g c', (((s.setInfo c.info ⟨0, true, 0⟩).setPhase f p).phase g).call = some c' →
      g = f ∧ c' = c ∨ g ≠ f ∧ (s.phase g).call = some c' := by
    intro g c' hc'
    by_cases hg : g = f
    · subst hg
      rw [phase_setPhase_self, hcall] at hc'
      exact .inl ⟨rfl, (Option.some.inj hc').symm⟩
    · rw [phase_setPhase_of_ne hg] at hc'
      exact .inr ⟨hg, hc'⟩
  constructor
  · intro g c' hc'
    rcases hcases g c' hc' with ⟨-, rfl⟩ | ⟨-, hold⟩
    · exact ⟨_, infos_setInfo_self s c'.info ⟨0, true, 0⟩, rfl⟩
    · obtain ⟨i, hi, howned⟩ := h.owned g c' hold
      exact ⟨i, (infos_setInfo_of_ne (hfresh g c' hold) s _).trans hi, howned⟩
  · intro g g' c₁ c₂ hc₁ hc₂ heq
    rcases hcases g c₁ hc₁ with ⟨rfl, rfl⟩ | ⟨-, hold₁⟩
    · rcases hcases g' c₂ hc₂ with ⟨rfl, rfl⟩ | ⟨-, hold₂⟩
      · rfl
      · exact absurd heq.symm (hfresh g' c₂ hold₂)
    · rcases hcases g' c₂ hc₂ with ⟨rfl, rfl⟩ | ⟨-, hold₂⟩
      · exact absurd heq (hfresh g c₁ hold₁)
      · exact h.distinct g g' c₁ c₂ hold₁ hold₂ heq
  · intro g c' t x hc' hx hinfo
    rcases hcases g c' hc' with ⟨-, rfl⟩ | ⟨-, hold⟩
    · exact absurd hinfo (hunused t x hx)
    · exact h.captured g c' t x hold hx hinfo
  · intro t x hx
    obtain ⟨i, hi, hflag⟩ := h.allocated t x hx
    exact ⟨i, (infos_setInfo_of_ne (hunused t x hx) s _).trans hi, hflag⟩
  · intro g c' t hc' ht
    rcases hcases g c' hc' with ⟨rfl, -⟩ | ⟨hg, hold⟩
    · rw [phase_setPhase_self, htimer] at ht
      cases ht
    · rw [phase_setPhase_of_ne hg] at ht
      exact h.timer g c' t hold ht
  · intro g c' hc' hg' hnone
    rcases hcases g c' hc' with ⟨rfl, -⟩ | ⟨hg, hold⟩
    · rw [phase_setPhase_self, hawaits] at hg'
      cases hg'
    · rw [phase_setPhase_of_ne hg] at hg' hnone
      exact h.timed g c' hold hg' hnone

/-- An invocation adds a timer. -/
theorem Booked.arm (h : s.Booked) {t : Nat} (hc : (s.phase f).call = some c)
    (hnew : s.timeouts t = none) :
    ((s.setTimer t ⟨c.info, c.fd, c.event, .pending⟩).setPhase f (.armed c (some t))).Booked := by
  have hcases : ∀ g c', ((((s.setTimer t ⟨c.info, c.fd, c.event, .pending⟩).setPhase f
      (.armed c (some t))).phase g).call = some c' → (s.phase g).call = some c') := by
    intro g c' hc'
    by_cases hg : g = f
    · subst hg
      rw [phase_setPhase_self] at hc'
      cases hc'
      exact hc
    · rwa [phase_setPhase_of_ne hg] at hc'
  have hold : ∀ t' x', (s.setTimer t ⟨c.info, c.fd, c.event, .pending⟩).timeouts t' = some x' →
      t' = t ∧ x' = ⟨c.info, c.fd, c.event, .pending⟩ ∨ s.timeouts t' = some x' := by
    intro t' x' hx'
    by_cases htt : t' = t
    · subst htt
      rw [timeouts_setTimer_self] at hx'
      exact .inl ⟨rfl, (Option.some.inj hx').symm⟩
    · rw [timeouts_setTimer_of_ne htt] at hx'
      exact .inr hx'
  refine ⟨fun g c' hc' => h.owned g c' (hcases g c' hc'),
    fun g g' c₁ c₂ hc₁ hc₂ => h.distinct g g' c₁ c₂ (hcases g c₁ hc₁) (hcases g' c₂ hc₂),
    ?_, ?_, ?_, ?_⟩
  · intro g c' t' x' hc' hx' hinfo
    rcases hold t' x' hx' with ⟨-, rfl⟩ | hx
    · have hg := h.distinct g f c' c (hcases g c' hc') hc hinfo.symm
      rw [hg, phase_setPhase_self] at hc'
      cases hc'
      exact ⟨rfl, rfl⟩
    · exact h.captured g c' t' x' (hcases g c' hc') hx hinfo
  · intro t' x' hx'
    rcases hold t' x' hx' with ⟨-, rfl⟩ | hx
    · obtain ⟨i, hi, -⟩ := h.owned f c hc
      exact ⟨i, hi, fun hm => by cases hm⟩
    · exact h.allocated t' x' hx
  · intro g c' t' hc' ht'
    by_cases hg : g = f
    · subst hg
      rw [phase_setPhase_self] at hc' ht'
      cases hc'
      cases ht'
      exact ⟨_, timeouts_setTimer_self s t _, rfl⟩
    · rw [phase_setPhase_of_ne hg] at hc' ht'
      obtain ⟨x, hx, hinfo⟩ := h.timer g c' t' hc' ht'
      have htt : t' ≠ t := by
        intro heq
        rw [heq] at hx
        rw [show s.timeouts t = none from hnew] at hx
        cases hx
      exact ⟨x, (timeouts_setTimer_of_ne htt s _).trans hx, hinfo⟩
  · intro g c' hc' hawaits hnone
    by_cases hg : g = f
    · subst hg
      rw [phase_setPhase_self] at hnone
      cases hnone
    · rw [phase_setPhase_of_ne hg] at hc' hawaits hnone
      exact h.timed g c' hc' hawaits hnone

/-! ### What a step of a fiber can do -/

/-- Where an invocation goes from a phase in which it does not wait, or has just
waited: `do_io` goes back to `retry` if the flag is zero. -/
inductive Next (s : Hooks) (f : Nat) (c : HookedCall) : HookPhase → Prop
  | blocked (hp : s.phase f = .calling c) : Next s f c (.blocked c)
  | disarmed (timer : Option Nat) (hp : s.phase f = .resumed c timer) : Next s f c (.disarmed c)
  | calling (hp : s.phase f = .disarmed c) (hkind : c.kind = .doIo)
      (hzero : s.cancelled c.info = 0) : Next s f c (.calling c)
  | finishing (hkind : c.kind = .connect) : Next s f c (.finishing c)

/-- These phases have the call, no timer, and wait for nothing. -/
theorem Next.untimed {p : HookPhase} (h : Next s f c p) :
    p.call = some c ∧ p.timer = none ∧ p.awaits = false ∧ p.waits = false := by
  cases h <;> exact ⟨rfl, rfl, rfl, rfl⟩

/-- The effect of a step of the fiber `f`, with what the step has checked. -/
inductive Moved (s : Hooks) (f : Nat) : Hooks → Prop
  | stay : Moved s f s
  | enter (c : HookedCall) (p : HookPhase) (hnew : s.infos c.info = none)
      (hp : p = .direct c ∨ p = .calling c) :
      Moved s f ((s.setInfo c.info ⟨0, true, 0⟩).setPhase f p)
  | leave (c : HookedCall) (hc : (s.phase f).call = some c) :
      Moved s f ((s.cancelTimer (s.phase f).timer).leave f c)
  | next (c : HookedCall) (p : HookPhase) (hc : (s.phase f).call = some c)
      (hnext : Next s f c p) :
      Moved s f ((s.cancelTimer (s.phase f).timer).setPhase f p)
  | untimed (c : HookedCall) (hp : s.phase f = .blocked c) (hforever : c.timeout = -1) :
      Moved s f (s.setPhase f (.armed c none))
  | arm (c : HookedCall) (t : Nat) (hp : s.phase f = .blocked c) (hnew : s.timeouts t = none) :
      Moved s f ((s.setTimer t ⟨c.info, c.fd, c.event, .pending⟩).setPhase f (.armed c (some t)))
  | register (c : HookedCall) (timer : Option Nat) (ctl ok : Bool) (io : IoManager)
      (hp : s.phase f = .armed c timer)
      (hadd : s.io.addEvent c.fd c.event none 0 f ctl = .ok (ok, io)) :
      Moved s f ((s.setIo io).setPhase f (if ok then .registered c timer else .refused c timer))
  | yield (c : HookedCall) (timer : Option Nat) (hp : s.phase f = .registered c timer) :
      Moved s f (s.setPhase f (.parked c timer))
  | resume (c : HookedCall) (timer : Option Nat) (hp : s.phase f = .parked c timer) :
      Moved s f ((s.setIo (s.io.takeFiber f)).setPhase f (.resumed c timer))
  | close (fds : FdManager) (io : IoManager) (p : HookPhase) (hold : (s.phase f).call = none)
      (hp : p.call = none) (hio : s.io.Wf → io.Wf ∧ s.io.Wakes io) :
      Moved s f ({ s with fds := fds, io := io }.setPhase f p)

/-- A function that does not return at once goes on to the call underneath. -/
theorem enter_moved {p : HookPhase} {info : Nat} {o : Out}
    (hp : p = .outside ∨ ∃ c : HookedCall, c.info = info ∧ (p = .direct c ∨ p = .calling c))
    (h : s.enter f info p = some (o, s')) : Moved s f s' := by
  unfold Hooks.enter at h
  split at h
  · rename_i hnew
    rcases hp with rfl | ⟨c, rfl, hp⟩
    · cases h
      exact .stay
    · have hcall : p.call = some c := by rcases hp with rfl | rfl <;> rfl
      rw [hcall] at h
      cases h
      exact .enter c p hnew hp
  · cases h

/-- `do_io` stays outside, or it begins a call with the `timer_info` it is given. -/
theorem doIo_cases (m : FdManager) (fd : Nat) (event : Event) (info : Nat) :
    m.doIo fd event info = .outside ∨ ∃ c : HookedCall, c.info = info ∧
      (m.doIo fd event info = .direct c ∨ m.doIo fd event info = .calling c) := by
  unfold FdManager.doIo
  repeat' split
  all_goals first
    | exact .inl rfl
    | exact .inr ⟨_, rfl, .inl rfl⟩
    | exact .inr ⟨_, rfl, .inr rfl⟩

/-- So does `connect_with_timeout`. -/
theorem connectWithTimeout_cases (m : FdManager) (fd : Nat) (timeout : UInt64) (info : Nat) :
    m.connectWithTimeout fd timeout info = .outside ∨ ∃ c : HookedCall, c.info = info ∧
      (m.connectWithTimeout fd timeout info = .direct c ∨
        m.connectWithTimeout fd timeout info = .calling c) := by
  unfold FdManager.connectWithTimeout
  repeat' split
  all_goals first
    | exact .inl rfl
    | exact .inr ⟨_, rfl, .inl rfl⟩
    | exact .inr ⟨_, rfl, .inr rfl⟩

/-- A step that leaves the timer alone, in a phase that has none. -/
theorem Moved.leave_untimed (hc : (s.phase f).call = some c) (htimer : (s.phase f).timer = none) :
    Moved s f (s.leave f c) := by
  have hleave := Moved.leave c hc
  rwa [htimer] at hleave

/-- A phase without a timer follows one without a timer. -/
theorem Moved.next_untimed {p : HookPhase} (hc : (s.phase f).call = some c)
    (htimer : (s.phase f).timer = none) (hp : Next s f c p) : Moved s f (s.setPhase f p) := by
  have hnext := Moved.next c p hc hp
  rwa [htimer] at hnext

/-- **Every step of a fiber** is one of these. -/
theorem act_moved {a : Act} {o : Out} (h : s.act f a (s.phase f) = some (o, s')) :
    Moved s f s' := by
  obtain ⟨p, hp⟩ : ∃ p, s.phase f = p := ⟨_, rfl⟩
  rw [hp] at h
  revert h
  fun_cases act with
  | case1 fd event info => exact enter_moved (doIo_cases s.fds fd event info)
  | case2 fd timeout info => exact enter_moved (connectWithTimeout_cases s.fds fd timeout info)
  | case3 answer c =>
      intro h
      cases h
      exact .leave_untimed (by rw [hp]; rfl) (by rw [hp]; rfl)
  | case4 answer c =>
      intro h
      cases h
      cases answer with
      | interrupted =>
          simp only [Hooks.answer]
          split
          · exact .stay
          · exact .leave_untimed (by rw [hp]; rfl) (by rw [hp]; rfl)
      | wouldBlock => exact .next_untimed (by rw [hp]; rfl) (by rw [hp]; rfl) (.blocked hp)
      | result => exact .leave_untimed (by rw [hp]; rfl) (by rw [hp]; rfl)
  | case5 t c hforever =>
      intro h
      cases h
      exact .untimed c hp hforever
  | case6 t c _ hnew =>
      intro h
      cases h
      exact .arm c t hp hnew
  | case8 ctl c timer =>
      intro h
      obtain ⟨⟨ok, io⟩, hadd, heq⟩ := Option.map_eq_some_iff.mp h
      cases heq
      exact .register c timer ctl ok io hp (toOption_eq_some hadd)
  | case9 c timer =>
      intro h
      cases h
      exact .yield c timer hp
  | case10 c timer =>
      intro h
      cases h
      exact .resume c timer hp
  | case12 c timer =>
      intro h
      cases h
      have hnext := Moved.next (s := s) (f := f) c (.disarmed c) (by rw [hp]; rfl)
        (.disarmed timer hp)
      rwa [hp] at hnext
  | case13 c timer hkind =>
      intro h
      cases h
      have hleave := Moved.leave (s := s) (f := f) c (by rw [hp]; rfl)
      rwa [hp] at hleave
  | case14 c timer hkind =>
      intro h
      cases h
      have hnext := Moved.next (s := s) (f := f) c (.finishing c) (by rw [hp]; rfl)
        (.finishing hkind)
      rwa [hp] at hnext
  | case15 c hcancelled =>
      intro h
      cases h
      exact .leave_untimed (by rw [hp]; rfl) (by rw [hp]; rfl)
  | case16 c hzero hkind =>
      intro h
      cases h
      exact .next_untimed (by rw [hp]; rfl) (by rw [hp]; rfl)
        (.calling hp hkind (not_not.mp hzero))
  | case17 c hzero hkind =>
      intro h
      cases h
      exact .next_untimed (by rw [hp]; rfl) (by rw [hp]; rfl) (.finishing hkind)
  | case18 ok c =>
      intro h
      cases h
      exact .leave_untimed (by rw [hp]; rfl) (by rw [hp]; rfl)
  | case19 fd =>
      intro h
      cases h
      refine .close s.fds s.io _ (by rw [hp]; rfl) ?_ (fun hwf => ⟨hwf, .refl s.io⟩)
      split <;> rfl
  | case20 ctl fd =>
      intro h
      obtain ⟨⟨ok, io⟩, hcancel, heq⟩ := Option.map_eq_some_iff.mp h
      cases heq
      exact .close s.fds io _ (by rw [hp]; rfl) rfl
        (fun hwf => IoManager.cancelAll_wakes hwf (toOption_eq_some hcancel))
  | case21 ctl fd =>
      intro h
      cases h
      exact .close s.fds s.io _ (by rw [hp]; rfl) rfl (fun hwf => ⟨hwf, .refl s.io⟩)
  | case22 fd =>
      intro h
      cases h
      exact .close (s.fds.del fd) s.io _ (by rw [hp]; rfl) rfl (fun hwf => ⟨hwf, .refl s.io⟩)
  | case23 fd =>
      intro h
      cases h
      exact .close (s.fds.closeF fd) s.io _ (by rw [hp]; rfl) rfl (fun hwf => ⟨hwf, .refl s.io⟩)
  | _ => exact nofun

/-! ### Steps -/

/-- **Step lemma** for the fibers. -/
theorem Moved.booked (h : s.Booked) (hmoved : Moved s f s') : s'.Booked := by
  cases hmoved with
  | stay => exact h
  | enter c p hnew hp => rcases hp with rfl | rfl <;> exact h.enter hnew rfl rfl rfl
  | leave c hc =>
      have hsame : (s.cancelTimer (s.phase f).timer).phase = s.phase := phase_cancelTimer s _
      exact (h.cancelTimer (s.phase f).timer).leave (by rw [hsame]; exact hc)
  | next c p hc hnext =>
      obtain ⟨hp, htimer, hawaits, -⟩ := hnext.untimed
      have hsame : (s.cancelTimer (s.phase f).timer).phase = s.phase := phase_cancelTimer s _
      exact (h.cancelTimer (s.phase f).timer).setPhase_untimed (by rw [hsame, hp, hc]) htimer
        hawaits
  | untimed c hp hforever =>
      refine h.setPhase ?_ nofun ?_
      · intro c' hc'
        rw [hp]
        exact hc'
      · intro _ _
        refine .inr ?_
        intro c' hc'
        cases hc'
        exact hforever
  | arm c t hp hnew => exact h.arm (by rw [hp]; rfl) hnew
  | register c timer ctl ok io hp hadd =>
      have hbooked : (s.setIo io).Booked := h.congr rfl rfl rfl
      have hp' : (s.setIo io).phase f = .armed c timer := hp
      cases ok with
      | true =>
          exact hbooked.setPhase (p := .registered c timer) (by rw [hp']; exact fun _ h => h)
            (by rw [hp']; exact fun _ h => h) (by rw [hp']; exact fun h h' => .inl ⟨h, h'⟩)
      | false =>
          exact hbooked.setPhase (p := .refused c timer) (by rw [hp']; exact fun _ h => h)
            (by rw [hp']; exact fun _ h => h) nofun
  | yield c timer hp =>
      exact h.setPhase (p := .parked c timer) (by rw [hp]; exact fun _ h => h)
        (by rw [hp]; exact fun _ h => h) (by rw [hp]; exact fun h h' => .inl ⟨h, h'⟩)
  | resume c timer hp =>
      have hbooked : (s.setIo (s.io.takeFiber f)).Booked := h.congr rfl rfl rfl
      have hp' : (s.setIo (s.io.takeFiber f)).phase f = .parked c timer := hp
      exact hbooked.setPhase (p := .resumed c timer) (by rw [hp']; exact fun _ h => h)
        (by rw [hp']; exact fun _ h => h) nofun
  | close fds io p hold hp hio =>
      have hbooked : Booked { s with fds := fds, io := io } := h.congr rfl rfl rfl
      cases p with
      | outside => exact hbooked.setPhase_none rfl rfl rfl
      | closing fd => exact hbooked.setPhase_none rfl rfl rfl
      | unregistered fd => exact hbooked.setPhase_none rfl rfl rfl
      | deleted fd => exact hbooked.setPhase_none rfl rfl rfl
      | _ => cases hp

/-- **Every step** is one of a fiber, one of a timer or its callback, or leaves
the fibers and the heap alone. -/
theorem step_cases {op : Op} {o : Out} (h : step s op = some (o, s')) :
    (∃ f a, op = .fiber f a ∧ Moved s f s') ∨
    (∃ t ctl x i, op = .timeout t ctl ∧ s.timeouts t = some x ∧ s.infos x.info = some i ∧
      s.fire t ctl x i = some s') ∨
    ∃ fds io, s' = { s with fds := fds, io := io } ∧ (s.io.Wf → io.Wf ∧ s.io.Wakes io) := by
  cases op with
  | fiber f a => exact .inl ⟨f, a, rfl, act_moved h⟩
  | timeout t ctl =>
      simp only [step] at h
      split at h
      · cases h
      · rename_i x hx
        obtain ⟨s'', hfire, heq⟩ := Option.map_eq_some_iff.mp h
        cases heq
        obtain ⟨i, hi, hfire⟩ := Option.bind_eq_some_iff.mp hfire
        exact .inr (.inl ⟨t, ctl, x, i, rfl, hx, hi, hfire⟩)
  | idle event ctl =>
      obtain ⟨⟨done, io⟩, hidle, heq⟩ := Option.map_eq_some_iff.mp h
      cases heq
      exact .inr (.inr ⟨s.fds, io, rfl,
        fun hwf => IoManager.idleEvent_wakes hwf (toOption_eq_some hidle)⟩)
  | cancelEvent fd event ctl =>
      obtain ⟨⟨ok, io⟩, hcancel, heq⟩ := Option.map_eq_some_iff.mp h
      cases heq
      exact .inr (.inr ⟨s.fds, io, rfl,
        fun hwf => IoManager.cancelEvent_wakes hwf (toOption_eq_some hcancel)⟩)
  | cancelAll fd ctl =>
      obtain ⟨⟨ok, io⟩, hcancel, heq⟩ := Option.map_eq_some_iff.mp h
      cases heq
      exact .inr (.inr ⟨s.fds, io, rfl,
        fun hwf => IoManager.cancelAll_wakes hwf (toOption_eq_some hcancel)⟩)
  | manage op =>
      obtain ⟨⟨out, fds⟩, -, heq⟩ := Option.map_eq_some_iff.mp h
      cases heq
      exact .inr (.inr ⟨fds, s.io, rfl, fun hwf => ⟨hwf, .refl s.io⟩⟩)
  | setTimeout fd event ms =>
      cases h
      exact .inr (.inr ⟨_, s.io, rfl, fun hwf => ⟨hwf, .refl s.io⟩⟩)
  | socket fd d =>
      obtain ⟨-, heq⟩ := Option.ite_none_right_eq_some.mp h
      cases heq
      exact .inr (.inr ⟨_, s.io, rfl, fun hwf => ⟨hwf, .refl s.io⟩⟩)

/-- A step of a callback keeps the books. -/
theorem Booked.fire (h : s.Booked) {t : Nat} {ctl : Bool} {x : Timeout} {i : TimerInfo}
    (ht : s.timeouts t = some x) (hi : s.infos x.info = some i)
    (hfire : s.fire t ctl x i = some s') : s'.Booked := by
  unfold Hooks.fire at hfire
  split at hfire
  · cases hfire
    exact h.setTimer ht nofun
  · split at hfire
    · cases hfire
      exact h.setTimer ht nofun
    · cases hfire
      refine (h.setHolders hi _).setTimer ht ?_
      exact nofun
  · split at hfire
    · cases hfire
      refine (h.setHolders hi _).setTimer ht ?_
      exact nofun
    · cases hfire
      exact h.setTimer ht nofun
  · cases hfire
    refine (h.setInfo { i with cancelled := ETIMEDOUT } hi rfl (fun _ => nofun)).setTimer ht ?_
    intro _ j hj
    rw [infos_setInfo_self] at hj
    cases hj
    exact nofun
  · obtain ⟨⟨ok, io⟩, -, heq⟩ := Option.map_eq_some_iff.mp hfire
    cases heq
    have hbooked : (s.setIo io).Booked := h.congr rfl rfl rfl
    refine (hbooked.setHolders hi _).setTimer ht ?_
    exact nofun
  · cases hfire
  · cases hfire

/-- **Step lemma.**  The books are kept. -/
theorem step_booked {op : Op} {o : Out} (h : s.Booked) (hstep : step s op = some (o, s')) :
    s'.Booked := by
  rcases step_cases hstep with ⟨f, a, -, hmoved⟩ | ⟨t, ctl, x, i, -, ht, hi, hfire⟩ |
    ⟨fds, io, rfl, -⟩
  · exact hmoved.booked h
  · exact h.fire ht hi hfire
  · exact h.congr rfl rfl rfl

/-- In the beginning nobody waits. -/
theorem queued_new : new.Queued := ⟨IoManager.new_wf, nofun⟩

/-- Nobody begins to wait, and whoever stops waiting is handed to a
scheduler. -/
theorem Queued.wakes (h : s.Queued) (hwf : s'.io.Wf) (hwakes : s.io.Wakes s'.io)
    (hphase : ∀ g c, (s'.phase g).call = some c → (s'.phase g).waits = true →
      (s.phase g).call = some c ∧ (s.phase g).waits = true) : s'.Queued := by
  refine ⟨hwf, ?_⟩
  intro g c hc hwaits
  obtain ⟨hc', hwaits'⟩ := hphase g c hc hwaits
  rcases h.waits g c hc' hwaits' with hwaiter | htask
  · exact hwakes.waits_or_woken hwaiter
  · exact .inr (hwakes.tasks _ htask)

/-- A fiber goes on to a phase in which it does not wait. -/
theorem Queued.setPhase (h : s.Queued) {p : HookPhase} (hwaits : p.waits = false) :
    (s.setPhase f p).Queued := by
  refine h.wakes h.io (.refl s.io) ?_
  intro g c hc hg
  by_cases hgf : g = f
  · subst hgf
    rw [phase_setPhase_self, hwaits] at hg
    cases hg
  · rw [phase_setPhase_of_ne hgf] at hc hg
    exact ⟨hc, hg⟩

/-- The invariant is about the `IOManager` and the fibers only. -/
theorem Queued.congr (h : s.Queued) (hio : s'.io = s.io) (hphase : s'.phase = s.phase) :
    s'.Queued := by
  refine ⟨hio ▸ h.io, ?_⟩
  rw [hio, hphase]
  exact h.waits

/-- Cancelling a timer does nothing to the events. -/
theorem io_cancelTimer (s : Hooks) (timer : Option Nat) : (s.cancelTimer timer).io = s.io := by
  unfold Hooks.cancelTimer
  repeat' split
  all_goals rfl

/-- A scheduler takes one fiber and leaves the others. -/
theorem mem_tasks_takeFiber {m : IoManager} {f g : Nat} (hg : g ≠ f)
    (h : Task.fiber g ∈ m.tasks) : Task.fiber g ∈ (m.takeFiber f).tasks := by
  obtain ⟨x, hx, hxg⟩ := List.mem_map.mp h
  refine List.mem_map.mpr ⟨x, ?_, hxg⟩
  refine (List.mem_eraseP_of_neg ?_).mpr hx
  simp [hxg, hg]

/-- **Step lemma** for the fibers: whoever waits has its event or is in the queue. -/
theorem Moved.queued (h : s.Queued) (hmoved : Moved s f s') : s'.Queued := by
  cases hmoved with
  | stay => exact h
  | enter c p hnew hp =>
      have hsame : (s.setInfo c.info ⟨0, true, 0⟩).Queued := h.congr rfl rfl
      rcases hp with rfl | rfl <;> exact hsame.setPhase rfl
  | leave c hc =>
      have hsame : (s.cancelTimer (s.phase f).timer).Queued :=
        h.congr (io_cancelTimer s _) (phase_cancelTimer s _)
      exact (hsame.setPhase (f := f) (p := .outside) rfl).congr rfl rfl
  | next c p hc hnext =>
      have hsame : (s.cancelTimer (s.phase f).timer).Queued :=
        h.congr (io_cancelTimer s _) (phase_cancelTimer s _)
      exact hsame.setPhase hnext.untimed.2.2.2
  | untimed c hp hforever => exact h.setPhase rfl
  | arm c t hp hnew =>
      have hsame : (s.setTimer t ⟨c.info, c.fd, c.event, .pending⟩).Queued := h.congr rfl rfl
      exact hsame.setPhase rfl
  | register c timer ctl ok io hp hadd =>
      obtain ⟨hwf, hsched, hfree, hwaiter⟩ := IoManager.addEvent_waiter h.io hadd
      have htasks : io.tasks = s.io.tasks := by rw [IoManager.tasks, hsched]; rfl
      refine ⟨hwf, ?_⟩
      intro g c' hc' hwaits
      by_cases hg : g = f
      · subst hg
        rw [phase_setPhase_self] at hc' hwaits
        cases ok with
        | false => cases hwaits
        | true =>
            cases hc'
            exact .inl ((hwaiter c.fd c.event).trans (if_pos ⟨rfl, rfl, rfl⟩))
      · rw [phase_setPhase_of_ne hg] at hc' hwaits
        rcases h.waits g c' hc' hwaits with hold | htask
        · have hslot : ¬ (ok = true ∧ c'.fd = c.fd ∧ c'.event = c.event) := by
            intro hboth
            rw [hboth.2.1, hboth.2.2, hfree] at hold
            cases hold
          exact .inl ((hwaiter c'.fd c'.event).trans ((if_neg hslot).trans hold))
        · exact .inr (htasks ▸ htask)
  | yield c timer hp =>
      refine h.wakes h.io (.refl s.io) ?_
      intro g c' hc' hg
      by_cases hgf : g = f
      · subst hgf
        rw [phase_setPhase_self] at hc'
        rw [hp]
        exact ⟨hc', rfl⟩
      · rw [phase_setPhase_of_ne hgf] at hc' hg
        exact ⟨hc', hg⟩
  | resume c timer hp =>
      refine ⟨⟨h.io.table, h.io.size, h.io.fd_eq, h.io.coherent, h.io.pending, h.io.interest⟩, ?_⟩
      intro g c' hc' hwaits
      by_cases hg : g = f
      · subst hg
        rw [phase_setPhase_self] at hwaits
        cases hwaits
      · rw [phase_setPhase_of_ne hg] at hc' hwaits
        rcases h.waits g c' hc' hwaits with hold | htask
        · exact .inl hold
        · exact .inr (mem_tasks_takeFiber hg htask)
  | close fds io p hold hp hio =>
      obtain ⟨hwf, hwakes⟩ := hio h.io
      refine h.wakes hwf hwakes ?_
      intro g c hc hg
      by_cases hgf : g = f
      · subst hgf
        rw [phase_setPhase_self, hp] at hc
        cases hc
      · rw [phase_setPhase_of_ne hgf] at hc hg
        exact ⟨hc, hg⟩

/-- What a step of a callback does to the event table: nothing, or a
`cancelEvent`. -/
theorem fire_io {t : Nat} {ctl : Bool} {x : Timeout} {i : TimerInfo}
    (hfire : s.fire t ctl x i = some s') :
    s'.phase = s.phase ∧ (s'.io = s.io ∨
      ∃ ok, x.state = .marked ∧ s.io.cancelEvent x.fd x.event ctl = .ok (ok, s'.io)) := by
  unfold Hooks.fire at hfire
  split at hfire
  · cases hfire
    exact ⟨rfl, .inl rfl⟩
  · split at hfire
    all_goals
      cases hfire
      exact ⟨rfl, .inl rfl⟩
  · split at hfire
    all_goals
      cases hfire
      exact ⟨rfl, .inl rfl⟩
  · cases hfire
    exact ⟨rfl, .inl rfl⟩
  · rename_i hstate
    obtain ⟨⟨ok, io⟩, hcancel, heq⟩ := Option.map_eq_some_iff.mp hfire
    cases heq
    exact ⟨rfl, .inr ⟨ok, hstate, toOption_eq_some hcancel⟩⟩
  · cases hfire
  · cases hfire

/-- **Step lemma.**  A fiber that waits is not forgotten. -/
theorem step_queued {op : Op} {o : Out} (h : s.Queued) (hstep : step s op = some (o, s')) :
    s'.Queued := by
  rcases step_cases hstep with ⟨f, a, -, hmoved⟩ | ⟨t, ctl, x, i, -, ht, hi, hfire⟩ |
    ⟨fds, io, rfl, hio⟩
  · exact hmoved.queued h
  · obtain ⟨hphase, hio | ⟨ok, -, hcancel⟩⟩ := fire_io hfire
    · exact h.congr hio hphase
    · obtain ⟨hwf, hwakes⟩ := IoManager.cancelEvent_wakes h.io hcancel
      refine h.wakes hwf hwakes ?_
      rw [hphase]
      exact fun g c hc hwaits => ⟨hc, hwaits⟩
  · obtain ⟨hwf, hwakes⟩ := hio h.io
    exact h.wakes hwf hwakes (fun g c hc hwaits => ⟨hc, hwaits⟩)

end Hooks

end Mingo
