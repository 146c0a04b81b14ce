import Mingo.Hook.Timeout

/-!
# Descriptors that are closed under a waiting fiber

`close` wakes up the fibers that wait on the descriptor, removes its `FdCtx` and
closes it.  A fiber that was woken up in `do_io` looks at `tinfo->cancelled`,
which only a timeout sets, and goes back to `retry`: it calls the function
underneath once more, on a number that is closed or belongs to a new socket.
`m_isClosed`, which nobody sets, does not keep it from that, and neither does the
`FdCtx`, which it has read before the wait.

* `no_syscall_after_close` -- an invocation that has timed out when the `FdCtx` is
  removed makes no further call underneath;
* `syscall_on_reused_descriptor` -- one that has not.
-/

namespace Mingo

namespace Hooks

/-- The invocation of the fiber `f` is past its last call underneath: its timeout
has set the flag, or `addEvent` has failed. -/
def Spent (s : Hooks) (f : Nat) (c : HookedCall) : Prop :=
  (s.phase f).calls = false ∧ (s.cancelled c.info ≠ 0 ∨ ∃ timer, s.phase f = .refused c timer)

/-- Every invocation of `do_io` on the descriptor that the fiber `g` closes is past
its last call underneath. -/
def Quiet (s : Hooks) (g : Nat) : Prop :=
  ∀ fd, s.phase g = .unregistered fd → ∀ f c, (s.phase f).call = some c → c.kind = .doIo →
    c.fd = fd → s.Spent f c

/-- The invocation with this `timer_info` has returned or is past its last call
underneath. -/
structure Retired (s : Hooks) (info : Nat) : Prop where
  allocated : s.infos info ≠ none
  spent : ∀ f c, (s.phase f).call = some c → c.info = info → c.kind = .doIo ∧ s.Spent f c

/-- `do_io` has no `getsockopt`. -/
def FinishesConnect (s : Hooks) : Prop := ∀ f c, s.phase f = .finishing c → c.kind = .connect

variable {s s' : Hooks} {f info : Nat} {c : HookedCall}

/-- A phase that finishes no other call than `connect`. -/
theorem FinishesConnect.setPhase (h : s.FinishesConnect) {p : HookPhase}
    (hp : ∀ c, p = .finishing c → c.kind = .connect) : (s.setPhase f p).FinishesConnect := by
  intro g c hc
  by_cases hg : g = f
  · subst hg
    rw [phase_setPhase_self] at hc
    exact hp c hc
  · rw [phase_setPhase_of_ne hg] at hc
    exact h g c hc

/-- The property is one of the phases. -/
theorem FinishesConnect.congr (h : s.FinishesConnect) (hphase : s'.phase = s.phase) :
    s'.FinishesConnect := by
  unfold FinishesConnect
  rw [hphase]
  exact h

/-- A move of a fiber keeps it. -/
theorem Moved.finishesConnect (h : s.FinishesConnect) (hmoved : Moved s f s') :
    s'.FinishesConnect := by
  cases hmoved with
  | stay => exact h
  | enter c p hnew hp =>
      have hsame : (s.setInfo c.info ⟨0, true, 0⟩).FinishesConnect := h.congr rfl
      rcases hp with rfl | rfl <;> exact hsame.setPhase nofun
  | leave c hc =>
      have hsame := (h.congr (phase_cancelTimer s (s.phase f).timer)).setPhase (f := f)
        (p := .outside) nofun
      exact hsame.congr rfl
  | next c p hc hnext =>
      refine (h.congr (phase_cancelTimer s (s.phase f).timer)).setPhase ?_
      intro c' hc'
      cases hnext with
      | finishing hkind =>
          cases hc'
          exact hkind
      | _ => cases hc'
  | untimed c hp hforever => exact h.setPhase nofun
  | arm c t hp hnew =>
      have hsame : (s.setTimer t ⟨c.info, c.fd, c.event, .pending⟩).FinishesConnect := h.congr rfl
      exact hsame.setPhase nofun
  | register c timer ctl ok io hp hadd =>
      have hsame : (s.setIo io).FinishesConnect := h.congr rfl
      cases ok <;> exact hsame.setPhase nofun
  | yield c timer hp => exact h.setPhase nofun
  | resume c timer hp =>
      have hsame : (s.setIo (s.io.takeFiber f)).FinishesConnect := h.congr rfl
      exact hsame.setPhase nofun
  | close fds io p hold hp hio =>
      have hsame : FinishesConnect { s with fds := fds, io := io } := h.congr rfl
      refine hsame.setPhase ?_
      rintro c rfl
      cases hp

/-- Every step keeps it. -/
theorem step_finishesConnect {op : Op} {o : Out} (h : s.FinishesConnect)
    (hstep : step s op = some (o, s')) : s'.FinishesConnect := by
  rcases step_cases hstep with ⟨f, a, -, hmoved⟩ | ⟨t, ctl, x, i, -, ht, hi, hfire⟩ |
    ⟨fds, io, rfl, hio⟩
  · exact hmoved.finishesConnect h
  · exact h.congr (fire_io hfire).1
  · exact h.congr rfl

/-- It holds at the start. -/
theorem finishesConnect_new : new.FinishesConnect := by
  intro f c hp
  cases hp

/-! ### The flag is never cleared -/

/-- A `timer_info` is not given away, and its flag not cleared. -/
structure Keeps (s s' : Hooks) (info : Nat) : Prop where
  allocated : s.infos info ≠ none → s'.infos info ≠ none
  flag : s.cancelled info ≠ 0 → s'.cancelled info ≠ 0

/-- A step that does not touch the object. -/
theorem Keeps.of_infos {info : Nat} (h : s'.infos info = s.infos info) : Keeps s s' info := by
  refine ⟨fun hold => by rwa [h], ?_⟩
  unfold Hooks.cancelled
  rw [h]
  exact id

/-- One step behind the other. -/
theorem Keeps.trans {s₁ s₂ s₃ : Hooks} (h : Keeps s₁ s₂ info) (h' : Keeps s₂ s₃ info) :
    Keeps s₁ s₃ info :=
  ⟨fun hold => h'.allocated (h.allocated hold), fun hold => h'.flag (h.flag hold)⟩

/-- Cancelling a timer touches no object. -/
theorem keeps_cancelTimer (s : Hooks) (timer : Option Nat) (info : Nat) :
    Keeps s (s.cancelTimer timer) info := .of_infos (congrFun (infos_cancelTimer s timer) info)

/-- A write that does not clear the flag. -/
theorem keeps_setInfo (info : Nat) {p : Nat} {i : TimerInfo} (i' : TimerInfo)
    (hp : s.infos p = some i) (hflag : i.cancelled ≠ 0 → i'.cancelled ≠ 0) :
    Keeps s (s.setInfo p i') info := by
  by_cases hinfo : info = p
  · subst hinfo
    refine ⟨fun _ => by simp, ?_⟩
    simpa [Hooks.cancelled, hp] using hflag
  · exact .of_infos (infos_setInfo_of_ne hinfo s i')

/-- Leaving a call keeps the object. -/
theorem keeps_leave (s : Hooks) (f info : Nat) (c : HookedCall) : Keeps s (s.leave f c) info := by
  refine ⟨?_, by rw [cancelled_leave]; exact id⟩
  intro hold
  by_cases hinfo : info = c.info
  · subst hinfo
    simpa [Hooks.leave] using hold
  · simpa [Hooks.leave, Function.update_of_ne hinfo] using hold

/-- A timeout that fires keeps the flags that are set. -/
theorem fire_keeps {t : Nat} {ctl : Bool} {x : Timeout} {i : TimerInfo}
    (hi : s.infos x.info = some i) (hfire : s.fire t ctl x i = some s') : Keeps s s' info := by
  unfold Hooks.fire at hfire
  split at hfire
  · cases hfire
    exact .of_infos rfl
  · split at hfire
    · cases hfire
      exact .of_infos rfl
    · cases hfire
      obtain ⟨hallocated, hflag⟩ := keeps_setInfo info
        { i with holders := i.holders + 1 } hi id
      exact ⟨hallocated, hflag⟩
  · split at hfire
    · cases hfire
      obtain ⟨hallocated, hflag⟩ := keeps_setInfo info
        { i with holders := i.holders - 1 } hi id
      exact ⟨hallocated, hflag⟩
    · cases hfire
      exact .of_infos rfl
  · cases hfire
    obtain ⟨hallocated, hflag⟩ := keeps_setInfo info
      { i with cancelled := ETIMEDOUT } hi (fun _ => nofun)
    exact ⟨hallocated, hflag⟩
  · obtain ⟨⟨ok, io⟩, -, heq⟩ := Option.map_eq_some_iff.mp hfire
    cases heq
    obtain ⟨hallocated, hflag⟩ := keeps_setInfo (s := s.setIo io) info
      { i with holders := i.holders - 1 } hi id
    exact ⟨hallocated, hflag⟩
  · cases hfire
  · cases hfire

/-! ### Invocations past their last call -/

/-- The other fibers are as before, and the fiber that moves is past its last
call if it goes on with the invocation. -/
theorem Retired.moved (h : s.Retired info) (hkeeps : Keeps s s' info)
    (hphase : ∀ g, g ≠ f → s'.phase g = s.phase g)
    (hself : ∀ c, (s'.phase f).call = some c → c.info = info → (s.phase f).call = some c ∧
      (s'.phase f).calls = false ∧
        (s.cancelled info ≠ 0 ∨ ∃ timer, s'.phase f = .refused c timer)) :
    s'.Retired info := by
  refine ⟨hkeeps.allocated h.allocated, ?_⟩
  intro g c hc hinfo
  by_cases hg : g = f
  · subst hg
    obtain ⟨hold, hcalls, hwhy⟩ := hself c hc hinfo
    obtain ⟨hkind, -⟩ := h.spent g c hold hinfo
    refine ⟨hkind, hcalls, ?_⟩
    rw [hinfo]
    exact hwhy.imp_left hkeeps.flag
  · rw [hphase g hg] at hc
    obtain ⟨hkind, hcalls, hwhy⟩ := h.spent g c hc hinfo
    rw [hinfo] at hwhy
    refine ⟨hkind, by rwa [hphase g hg], ?_⟩
    rw [hinfo, hphase g hg]
    exact hwhy.imp_left hkeeps.flag

/-- An invocation that does not call underneath and was not refused. -/
theorem Retired.flag (h : s.Retired info) (hc : (s.phase f).call = some c) (hinfo : c.info = info)
    (hrefused : ∀ timer, s.phase f ≠ .refused c timer) : s.cancelled info ≠ 0 := by
  obtain ⟨-, -, hwhy⟩ := h.spent f c hc hinfo
  rw [hinfo] at hwhy
  rcases hwhy with hflag | ⟨timer, hp⟩
  · exact hflag
  · exact absurd hp (hrefused timer)

/-- A fiber that was not refused goes on to a phase before no call underneath. -/
theorem Retired.setPhase (h : s.Retired info) (hphase : s'.phase = s.phase)
    (hinfos : s'.infos = s.infos) {p q : HookPhase} (hq : s.phase f = q) (hcall : p.call = q.call)
    (hcalls : p.calls = false) (hrefused : ∀ c timer, q ≠ .refused c timer) :
    (s'.setPhase f p).Retired info := by
  subst hq
  refine h.moved (f := f) (.of_infos (congrFun hinfos info)) ?_ ?_
  · intro g hg
    rw [phase_setPhase_of_ne hg, hphase]
  · intro c hc hinfo
    rw [phase_setPhase_self] at hc ⊢
    rw [hcall] at hc
    exact ⟨hc, hcalls, .inl (h.flag hc hinfo (hrefused c))⟩

/-- A retired object stays retired through a move. -/
theorem Moved.retired (h : s.Retired info) (hmoved : Moved s f s') : s'.Retired info := by
  cases hmoved with
  | stay => exact h
  | enter c p hnew hp =>
      have hne : info ≠ c.info := by
        rintro rfl
        exact h.allocated hnew
      refine h.moved (.of_infos (infos_setInfo_of_ne hne s _))
        (fun g hg => phase_setPhase_of_ne hg _ p)
        ?_
      intro c' hc' hinfo
      rw [phase_setPhase_self] at hc'
      have heq : c' = c := by rcases hp with rfl | rfl <;> exact (Option.some.inj hc').symm
      rw [heq] at hinfo
      exact absurd hinfo.symm hne
  | leave c hc =>
      refine h.moved (f := f) ((keeps_cancelTimer s _ info).trans (keeps_leave _ f info c)) ?_ ?_
      · intro g hg
        rw [phase_leave_of_ne hg, phase_cancelTimer]
      · intro c' hc'
        simp only [Hooks.leave, Function.update_self] at hc'
        cases hc'
  | next c p hc hnext =>
      refine h.moved (f := f) ((keeps_cancelTimer s _ info).trans (.of_infos rfl)) ?_ ?_
      · intro g hg
        rw [phase_setPhase_of_ne hg, phase_cancelTimer]
      · intro c' hc' hinfo
        rw [phase_setPhase_self] at hc' ⊢
        rw [hnext.untimed.1] at hc'
        cases hc'
        refine ⟨hc, ?_⟩
        obtain ⟨hkind, hcalls, -⟩ := h.spent f c hc hinfo
        cases hnext with
        | blocked hp =>
            rw [hp] at hcalls
            cases hcalls
        | disarmed timer hp =>
            exact ⟨rfl, .inl (h.flag hc hinfo (fun timer => by rw [hp]; intro h; cases h))⟩
        | calling hp _ hzero =>
            -- `goto retry` is for a flag that is zero
            have hflag := h.flag hc hinfo (fun timer => by rw [hp]; intro h; cases h)
            rw [← hinfo] at hflag
            exact absurd hzero hflag
        | finishing hconnect =>
            rw [hkind] at hconnect
            cases hconnect
  | untimed c hp hforever => exact h.setPhase rfl rfl hp rfl rfl fun _ _ hq => by cases hq
  | arm c t hp hnew => refine h.setPhase ?_ ?_ hp ?_ ?_ (fun _ _ hq => by cases hq) <;> rfl
  | register c timer ctl ok io hp hadd =>
      cases ok <;> refine h.setPhase ?_ ?_ hp ?_ ?_ (fun _ _ hq => by cases hq) <;> rfl
  | yield c timer hp => exact h.setPhase rfl rfl hp rfl rfl fun _ _ hq => by cases hq
  | resume c timer hp => refine h.setPhase ?_ ?_ hp ?_ ?_ (fun _ _ hq => by cases hq) <;> rfl
  | close fds io p hold hp hio =>
      refine h.moved (.of_infos rfl) (fun g hg => phase_setPhase_of_ne hg _ _) ?_
      intro c' hc'
      rw [phase_setPhase_self, hp] at hc'
      cases hc'

/-! ### Runs -/

/-- What entering a call can return. -/
theorem enter_out {p : HookPhase} {o : Out} (h : s.enter f info p = some (o, s')) :
    o = .done ∨ o = .returned info false := by
  unfold Hooks.enter at h
  split at h
  · split at h
    · cases h
      exact .inr rfl
    · cases h
      exact .inl rfl
  · cases h

/-- What a step of a fiber reports: a call underneath comes from an invocation
just before one, and only `connect_with_timeout` returns a success after it has
waited. -/
theorem act_out {a : Act} {o : Out} (h : s.act f a (s.phase f) = some (o, s')) :
    (∀ info fd, o = .syscall info fd →
      ∃ c, (s.phase f).call = some c ∧ c.info = info ∧ (s.phase f).calls = true) ∧
    (∀ info, o = .returned info true → ∃ c, s.phase f = .finishing c ∧ c.info = info) := by
  obtain ⟨p, hp⟩ : ∃ p, s.phase f = p := ⟨_, rfl⟩
  rw [hp] at h ⊢
  revert h
  fun_cases act with
  | case1 fd event info =>
      intro h
      rcases enter_out h with rfl | rfl <;> exact ⟨by simp, by simp⟩
  | case2 fd timeout info =>
      intro h
      rcases enter_out h with rfl | rfl <;> exact ⟨by simp, by simp⟩
  | case8 ctl c timer =>
      intro h
      obtain ⟨r, -, heq⟩ := Option.map_eq_some_iff.mp h
      cases heq
      exact ⟨by simp, by simp⟩
  | case20 ctl fd =>
      intro h
      obtain ⟨r, -, heq⟩ := Option.map_eq_some_iff.mp h
      cases heq
      exact ⟨by simp, by simp⟩
  | _ =>
      intro h
      cases h <;> simp [HookPhase.call, HookPhase.calls]

/-- Only fibers have something to report. -/
theorem step_out {op : Op} {o : Out} (h : step s op = some (o, s')) :
    (∃ f a, op = .fiber f a ∧ s.act f a (s.phase f) = some (o, s')) ∨ o = .done := by
  cases op with
  | fiber f a => exact .inl ⟨f, a, rfl, h⟩
  | timeout t ctl =>
      simp only [step] at h
      split at h
      · cases h
      · obtain ⟨s'', -, heq⟩ := Option.map_eq_some_iff.mp h
        cases heq
        exact .inr rfl
  | setTimeout fd event ms =>
      cases h
      exact .inr rfl
  | socket fd d =>
      obtain ⟨-, heq⟩ := Option.ite_none_right_eq_some.mp h
      cases heq
      exact .inr rfl
  | _ =>
      obtain ⟨r, -, heq⟩ := Option.map_eq_some_iff.mp h
      cases heq
      exact .inr rfl

/-- **Step lemma.**  An invocation past its last call stays so. -/
theorem step_retired {op : Op} {o : Out} (h : s.Retired info) (hstep : step s op = some (o, s')) :
    s'.Retired info := by
  rcases step_cases hstep with ⟨f, a, -, hmoved⟩ | ⟨t, ctl, x, i, -, ht, hi, hfire⟩ |
    ⟨fds, io, rfl, hio⟩
  · exact hmoved.retired h
  · have hkeeps : Keeps s s' info := fire_keeps hi hfire
    have hphase := (fire_io hfire).1
    refine ⟨hkeeps.allocated h.allocated, ?_⟩
    intro f c hc hinfo
    rw [hphase] at hc
    obtain ⟨hkind, hcalls, hwhy⟩ := h.spent f c hc hinfo
    refine ⟨hkind, by rwa [hphase], ?_⟩
    rw [hinfo] at hwhy ⊢
    rw [hphase]
    exact hwhy.imp_left hkeeps.flag
  · exact ⟨h.allocated, h.spent⟩

/-- An invocation past its last call makes no call underneath, and returns an
error if it returns. -/
theorem Retired.out (h : s.Retired info) (hconnect : s.FinishesConnect) {op : Op} {o : Out}
    (hstep : step s op = some (o, s')) :
    (∀ fd, o ≠ .syscall info fd) ∧ o ≠ .returned info true := by
  rcases step_out hstep with ⟨f, a, -, hact⟩ | rfl
  · obtain ⟨hcall, hreturn⟩ := act_out hact
    constructor
    · intro fd ho
      obtain ⟨c, hc, hinfo, hcalls⟩ := hcall info fd ho
      obtain ⟨-, hnot, -⟩ := h.spent f c hc hinfo
      rw [hcalls] at hnot
      cases hnot
    · intro ho
      obtain ⟨c, hp, hinfo⟩ := hreturn info ho
      obtain ⟨hkind, -⟩ := h.spent f c (by rw [hp]; rfl) hinfo
      rw [hconnect f c hp] at hkind
      cases hkind
  · exact ⟨nofun, nofun⟩

/-- **Closing under waiting fibers.**  In every run: if every invocation of `do_io`
on the descriptor is past its last call underneath when `close` removes the
`FdCtx`, then none of them makes another call underneath, whatever happens to
the descriptor afterwards, and those that return report an error. -/
theorem no_syscall_after_close (pre post : List Op) (outs outs' : List Out) (s s' : Hooks)
    (g fd : Nat) (hpre : Machine.run step new pre = some (outs, s))
    (hclose : s.phase g = .unregistered fd)
    (hpost : Machine.run step s (.fiber g .del :: post) = some (outs', s')) (hquiet : s.Quiet g)
    (f : Nat) (c : HookedCall) (hc : (s.phase f).call = some c) (hkind : c.kind = .doIo)
    (hfd : c.fd = fd) :
    ∀ o ∈ outs', (∀ fd', o ≠ .syscall c.info fd') ∧ o ≠ .returned c.info true := by
  have hb : s.Booked := Machine.run_invariant (fun _ _ _ _ h => step_booked h) booked_new hpre
  have hconnect : s.FinishesConnect :=
    Machine.run_invariant (fun _ _ _ _ h => step_finishesConnect h) finishesConnect_new hpre
  have hretired : s.Retired c.info := by
    constructor
    · obtain ⟨i, hi, -⟩ := hb.owned f c hc
      rw [hi]
      exact nofun
    · intro f' c' hc' hinfo
      obtain rfl := hb.distinct f' f c' c hc' hc hinfo
      obtain rfl : c' = c := Option.some.inj (hc'.symm.trans hc)
      exact ⟨hkind, hquiet fd hclose f' c' hc hkind hfd⟩
  have hstep : ∀ s op o s', (s.Retired c.info ∧ s.FinishesConnect) → step s op = some (o, s') →
      (s'.Retired c.info ∧ s'.FinishesConnect) ∧
        ((∀ fd', o ≠ .syscall c.info fd') ∧ o ≠ .returned c.info true) := by
    intro s op o s' hinv hstep
    exact ⟨⟨step_retired hinv.1 hstep, step_finishesConnect hinv.2 hstep⟩,
      hinv.1.out hinv.2 hstep⟩
  exact (Machine.run_outputs hstep ⟨hretired, hconnect⟩ hpost).2

/-- Fiber 1 has read from socket 5 until its timeout; fiber 2 closes the socket
before fiber 1 runs again. -/
def closedAfterTimeout : List Op :=
  waitsForTimeout ++ [.timeout 0 true, .timeout 0 true, .timeout 0 true, .timeout 0 true,
    .fiber 2 (.close 5), .fiber 2 (.cancelAll true true)]

/-- The fibers from 3 on are outside. -/
theorem phase_closedAfterTimeout (n : Nat) :
    (Machine.run step new closedAfterTimeout).map (fun r => r.2.phase (n + 3)) = some .outside :=
  rfl

/-- Then the descriptor is reused and fiber 1 runs again. -/
def reusedAfterTimeout : List Op :=
  [.fiber 2 .closeF, .socket 5 ⟨true, 2#32⟩, .manage (.get 5), .fiber 1 .resume,
    .fiber 1 .cancelTimer, .fiber 1 .check]

/-- A descriptor that is closed behind the timeout, and its number used again. -/
theorem no_syscall_after_close_timeout :
    ∃ outs s outs' s', Machine.run step new closedAfterTimeout = some (outs, s) ∧
      Machine.run step s (.fiber 2 .del :: reusedAfterTimeout) = some (outs', s') ∧
      .returned 0 false ∈ outs' ∧
      ∀ o ∈ outs', (∀ fd', o ≠ .syscall 0 fd') ∧ o ≠ .returned 0 true := by
  have hend : (Machine.run step new closedAfterTimeout).any (fun r =>
      r.2.phase 0 = .outside ∧ r.2.phase 1 = .parked ⟨.doIo, 5, .read, 10, 0⟩ (some 0) ∧
        r.2.phase 2 = .unregistered 5 ∧ r.2.cancelled 0 ≠ 0 ∧
        (Machine.run step r.2 (.fiber 2 .del :: reusedAfterTimeout)).any
          (fun r' => .returned 0 false ∈ r'.1) = true) = true := by
    decide
  obtain ⟨⟨outs, s⟩, hpre, hstate⟩ := (Option.any_eq_true _ _).mp hend
  obtain ⟨hzero, hone, htwo, hflag, hrest⟩ := of_decide_eq_true hstate
  obtain ⟨⟨outs', s'⟩, hpost, hreturned⟩ := (Option.any_eq_true _ _).mp hrest
  have hquiet : s.Quiet 2 := by
    intro fd _ f c hc _ _
    match f with
    | 0 =>
        rw [hzero] at hc
        cases hc
    | 1 =>
        have hinfo : c.info = 0 := by
          rw [hone] at hc
          cases hc
          rfl
        exact ⟨by rw [hone]; rfl, .inl (by rwa [hinfo])⟩
    | 2 =>
        rw [htwo] at hc
        cases hc
    | n + 3 =>
        have hother := phase_closedAfterTimeout n
        rw [hpre] at hother
        rw [show s.phase (n + 3) = .outside from Option.some.inj hother] at hc
        cases hc
  exact ⟨outs, s, outs', s', hpre, hpost, of_decide_eq_true hreturned,
    no_syscall_after_close _ _ outs outs' s s' 2 5 hpre htwo hpost hquiet 1 _
      (by rw [hone]; rfl) rfl rfl⟩

/-- Fiber 1 waits on socket 5 without a timeout; fiber 2 closes it. -/
def closedUnderReader : List Op :=
  [.socket 5 ⟨true, 2#32⟩, .manage (.get 5), .fiber 1 (.doIo 5 .read 0),
    .fiber 1 (.call .wouldBlock), .fiber 1 (.addConditionTimer 0), .fiber 1 (.addEvent true),
    .fiber 1 .yieldToHold, .fiber 2 (.close 5), .fiber 2 (.cancelAll true true)]

/-- The number is reused for a new socket before fiber 1 runs again. -/
def reusedUnderReader : List Op :=
  [.fiber 2 .closeF, .socket 5 ⟨true, 2#32⟩, .manage (.get 5), .fiber 1 .resume,
    .fiber 1 .cancelTimer, .fiber 1 .check, .fiber 1 (.call .result)]

/-- **The reader of a closed socket** reads from the new one. -/
theorem syscall_on_reused_descriptor :
    ¬ ∀ pre post outs outs' s s' g fd, Machine.run step new pre = some (outs, s) →
      s.phase g = .unregistered fd →
      Machine.run step s (.fiber g .del :: post) = some (outs', s') →
      ∀ f c, (s.phase f).call = some c → c.kind = .doIo → c.fd = fd →
        ∀ o ∈ outs', o ≠ .syscall c.info fd := by
  intro hall
  have hend : (Machine.run step new closedUnderReader).any (fun r =>
      r.2.phase 1 = .parked ⟨.doIo, 5, .read, -1, 0⟩ none ∧ r.2.phase 2 = .unregistered 5 ∧
        (Machine.run step r.2 (.fiber 2 .del :: reusedUnderReader)).any
          (fun r' => .syscall 0 5 ∈ r'.1) = true) = true := by
    decide
  obtain ⟨⟨outs, s⟩, hpre, hstate⟩ := (Option.any_eq_true _ _).mp hend
  obtain ⟨hone, htwo, hrest⟩ := of_decide_eq_true hstate
  obtain ⟨⟨outs', s'⟩, hpost, hsyscall⟩ := (Option.any_eq_true _ _).mp hrest
  exact hall _ _ outs outs' s s' 2 5 hpre htwo hpost 1 _ (by rw [hone]; rfl) rfl rfl _
    (of_decide_eq_true hsyscall) rfl

end Hooks

end Mingo
