import Mingo.Timer.Early

/-!
# Hooked sleeps

`sleep`, `usleep` and `nanosleep` of hook.cpp turn their argument into a period
in milliseconds, arm a timer whose callback schedules the calling fiber, and
yield.  The three conversions lose something in three ways: a product of 32
bits wraps around, a division rounds down, and a sum of 64 bits is stored into
an `int` and widened again.

* `enough_iff` -- when the period is no shorter than the request and does not
  wrap around on top of the clock reading;
* `Waits`, `step_waits` -- a timer that nobody names stays as it was armed;
* `lastsLongEnough_iff` -- when the fiber sleeps long enough.
-/

namespace Mingo

/-- A valid request of `nanosleep`. -/
structure Timespec where
  sec : Nat
  nsec : Nat
  sec_lt : sec < 2 ^ 63
  nsec_lt : nsec < 10 ^ 9

/-- The calls, with the hooks enabled. -/
inductive SleepCall
  | sleep (seconds : UInt32)
  | usleep (usec : UInt32)
  | nanosleep (req : Timespec)

/-- The period that `sleep` passes to `addTimer`. -/
def sleep (seconds : UInt32) : UInt64 := (seconds * 1000).toUInt64

/-- The period that `usleep` passes to `addTimer`. -/
def usleep (usec : UInt32) : UInt64 := (usec / 1000).toUInt64

/-- The milliseconds of a request, before they are stored into `timeout_ms`. -/
def Timespec.ms (req : Timespec) : Nat := req.sec * 1000 + req.nsec / 1000 / 1000

/-- The period that `nanosleep` passes to `addTimer`; undefined when the sum overflows. -/
def nanosleep (req : Timespec) : Option UInt64 :=
  if req.ms < 2 ^ 63 then some ⟨(BitVec.ofNat 32 req.ms).signExtend 64⟩ else none

namespace SleepCall

def period : SleepCall → Option UInt64
  | .sleep seconds => some (Mingo.sleep seconds)
  | .usleep usec => some (Mingo.usleep usec)
  | .nanosleep req => Mingo.nanosleep req

/-- The time that is asked for. -/
def nanoseconds : SleepCall → Nat
  | .sleep seconds => seconds.toNat * 10 ^ 9
  | .usleep usec => usec.toNat * 1000
  | .nanosleep req => req.sec * 10 ^ 9 + req.nsec

/-- The conversions lose nothing, and the sum with the clock reading does not wrap around.
A request of `nanosleep` whose milliseconds become a negative `int` has a period close to
the longest one. -/
def KeepsTime (now : UInt64) : SleepCall → Prop
  | .sleep seconds => seconds.toNat * 1000 < 2 ^ 32 ∧ now.toNat + seconds.toNat * 1000 < 2 ^ 64
  | .usleep usec => usec.toNat % 1000 = 0 ∧ now.toNat + usec.toNat / 1000 < 2 ^ 64
  | .nanosleep req =>
      req.nsec % 10 ^ 6 = 0 ∧ req.ms < 2 ^ 31 ∧ now.toNat + req.ms < 2 ^ 64 ∨
        req.ms < 2 ^ 63 ∧ 2 ^ 31 ≤ req.ms % 2 ^ 32 ∧
          now.toNat + (2 ^ 64 - 2 ^ 32 + req.ms % 2 ^ 32) < 2 ^ 64

instance (now : UInt64) : DecidablePred (KeepsTime now)
  | .sleep _ => inferInstanceAs (Decidable (_ ∧ _))
  | .usleep _ => inferInstanceAs (Decidable (_ ∧ _))
  | .nanosleep _ => inferInstanceAs (Decidable (_ ∨ _))

/-! ### The conversions -/

theorem toNat_nanosleep {req : Timespec} {p : UInt64} (h : Mingo.nanosleep req = some p) :
    p.toNat = if req.ms % 2 ^ 32 < 2 ^ 31 then req.ms % 2 ^ 32
      else 2 ^ 64 - 2 ^ 32 + req.ms % 2 ^ 32 := by
  unfold Mingo.nanosleep at h
  split at h
  · cases h
    show ((BitVec.ofNat 32 req.ms).signExtend 64).toNat = _
    rw [BitVec.toNat_signExtend, BitVec.toNat_setWidth, BitVec.msb_eq_decide, BitVec.toNat_ofNat]
    by_cases hlow : req.ms % 2 ^ 32 < 2 ^ 31
    · rw [if_pos hlow, if_neg (by simpa using hlow)]
      omega
    · rw [if_neg hlow, if_pos (by simpa using hlow)]
      omega
  · cases h

/-- The period is no shorter than the request, and does not wrap around. -/
def Enough (now : UInt64) (call : SleepCall) : Prop :=
  ∃ p, call.period = some p ∧ call.nanoseconds ≤ p.toNat * 10 ^ 6 ∧ IdleLoops.Fits now p

theorem enough_iff (now : UInt64) (call : SleepCall) : call.Enough now ↔ call.KeepsTime now := by
  unfold Enough IdleLoops.Fits
  cases call with
  | sleep seconds =>
      have hperiod : (Mingo.sleep seconds).toNat = seconds.toNat * 1000 % 2 ^ 32 :=
        UInt32.toNat_mul seconds 1000
      constructor
      · rintro ⟨p, hp, henough, hfits⟩
        cases hp
        rw [hperiod] at henough hfits
        simp only [nanoseconds] at henough
        have hlt : seconds.toNat * 1000 < 2 ^ 32 := by omega
        rw [Nat.mod_eq_of_lt hlt] at hfits
        exact ⟨hlt, hfits⟩
      · rintro ⟨hlt, hfits⟩
        refine ⟨_, rfl, ?_, ?_⟩
        · rw [hperiod, Nat.mod_eq_of_lt hlt, nanoseconds]
          omega
        · rwa [hperiod, Nat.mod_eq_of_lt hlt]
  | usleep usec =>
      have hperiod : (Mingo.usleep usec).toNat = usec.toNat / 1000 := UInt32.toNat_div usec 1000
      constructor
      · rintro ⟨p, hp, henough, hfits⟩
        cases hp
        rw [hperiod] at henough hfits
        simp only [nanoseconds] at henough
        exact ⟨by omega, hfits⟩
      · rintro ⟨hmod, hfits⟩
        refine ⟨_, rfl, ?_, ?_⟩
        · rw [hperiod, nanoseconds]
          omega
        · rwa [hperiod]
  | nanosleep req =>
      have hms : req.ms = req.sec * 1000 + req.nsec / 1000 / 1000 := rfl
      have hnsec := req.nsec_lt
      constructor
      · rintro ⟨p, hp, henough, hfits⟩
        have hperiod := toNat_nanosleep hp
        have hsum : req.ms < 2 ^ 63 := by
          by_contra hover
          rw [period, Mingo.nanosleep, if_neg hover] at hp
          cases hp
        simp only [nanoseconds] at henough
        by_cases hlow : req.ms % 2 ^ 32 < 2 ^ 31
        · rw [if_pos hlow] at hperiod
          left
          omega
        · rw [if_neg hlow] at hperiod
          right
          omega
      · intro hkeeps
        have hsum : req.ms < 2 ^ 63 := by
          rcases hkeeps with ⟨-, hlt, -⟩ | ⟨hlt, -⟩
          · omega
          · exact hlt
        have hp : Mingo.nanosleep req = some ⟨(BitVec.ofNat 32 req.ms).signExtend 64⟩ := if_pos hsum
        have hperiod := toNat_nanosleep hp
        refine ⟨_, hp, ?_, ?_⟩
        · rw [hperiod, nanoseconds]
          rcases hkeeps with ⟨hmod, hlt, -⟩ | ⟨-, hbig, -⟩
          · rw [if_pos (by omega)]
            omega
          · rw [if_neg (by omega)]
            omega
        · rw [hperiod]
          rcases hkeeps with ⟨-, hlt, hfits⟩ | ⟨-, hbig, hfits⟩
          · rw [if_pos (by omega)]
            omega
          · rw [if_neg (by omega)]
            exact hfits

/-- Nothing is asked for, and the period is zero. -/
theorem period_of_zero {call : SleepCall} {p : UInt64} (hp : call.period = some p)
    (hzero : call.nanoseconds = 0) : p.toNat = 0 := by
  cases call with
  | sleep seconds =>
      cases hp
      have hperiod : (Mingo.sleep seconds).toNat = seconds.toNat * 1000 % 2 ^ 32 :=
        UInt32.toNat_mul seconds 1000
      simp only [nanoseconds] at hzero
      omega
  | usleep usec =>
      cases hp
      have hperiod : (Mingo.usleep usec).toNat = usec.toNat / 1000 := UInt32.toNat_div usec 1000
      simp only [nanoseconds] at hzero
      omega
  | nanosleep req =>
      have hperiod := toNat_nanosleep hp
      have hms : req.ms = req.sec * 1000 + req.nsec / 1000 / 1000 := rfl
      simp only [nanoseconds] at hzero
      have hnone : req.ms = 0 := by omega
      rw [hperiod, hnone]
      decide

end SleepCall

namespace TimerManager

variable {Cb : Type} {m m' : TimerManager Cb} {a b : Nat} {t : Timer Cb} {now : UInt64}

/-! ### A timer that nobody names -/

/-- The call does not name the object at an address. -/
def Leaves (a : Nat) : AnyOp Cb → Prop
  | .addEmpty _ _ _ b => b ≠ a
  | .call (.addTimer _ _ _ _ b) => b ≠ a
  | .call (.cancel b) => b ≠ a
  | .call (.refresh b _) => b ≠ a
  | .call (.reset b _ _ _) => b ≠ a
  | .call (.release b) => b ≠ a
  | .call (.getNextTimer _) => True
  | .call (.listExpiredCb _ _) => True

instance (a : Nat) : DecidablePred (Leaves a : AnyOp Cb → Prop)
  | .addEmpty _ _ _ b | .call (.addTimer _ _ _ _ b) | .call (.cancel b) | .call (.refresh b _)
  | .call (.reset b _ _ _) | .call (.release b) => inferInstanceAs (Decidable (b ≠ a))
  | .call (.getNextTimer _) | .call (.listExpiredCb _ _) => isTrue trivial

/-- The object is the same as before, and is not new in the set. -/
def Untouched (a : Nat) (m m' : TimerManager Cb) : Prop :=
  a ∈ m'.timers → a ∈ m.timers ∧ m'.heap a = m.heap a

/-- Another object is stored and put into the set. -/
theorem untouched_insertTimer {timers : List Nat} (hne : b ≠ a)
    (hmem : a ∈ timers → a ∈ m.timers) (t : Timer Cb) :
    Untouched a m ((({ m with timers } : TimerManager Cb).store b t).insertTimer b).2 := by
  intro ha
  refine ⟨?_, store_heap_ne m t (Ne.symm hne)⟩
  rcases OrderedSet.mem_of_mem_insert ha with heq | ha
  · exact absurd heq.symm hne
  · exact hmem ha

theorem cancel_untouched {ok : Bool} (hne : b ≠ a) (hcall : m.cancel b t = some (ok, m')) :
    Untouched a m m' := by
  obtain ⟨-, rfl⟩ | ⟨cb, timers, -, herase, rfl⟩ := cancel_cases hcall
  · exact fun ha => ⟨ha, rfl⟩
  · exact fun ha => ⟨OrderedSet.mem_of_mem_erase herase ha, store_heap_ne m _ (Ne.symm hne)⟩

theorem refresh_untouched {ok : Bool} (hne : b ≠ a)
    (hcall : m.refresh b t now = some (ok, m')) : Untouched a m m' := by
  obtain ⟨-, rfl⟩ | ⟨cb, timers, -, herase, rfl⟩ := refresh_cases hcall
  · exact fun ha => ⟨ha, rfl⟩
  · exact untouched_insertTimer hne (OrderedSet.mem_of_mem_erase herase) _

theorem reset_untouched {ok front fromNow : Bool} {ms : UInt64} (hne : b ≠ a)
    (hcall : m.reset b t ms fromNow now = some (ok, front, m')) : Untouched a m m' := by
  obtain ⟨-, -, rfl⟩ | ⟨cb, timers, -, herase, hinsert⟩ := reset_cases hcall
  · exact fun ha => ⟨ha, rfl⟩
  · have hsame := untouched_insertTimer hne (OrderedSet.mem_of_mem_erase herase)
      { t with ms, next := (if fromNow then now else t.next - t.ms) + ms }
    rw [hinsert] at hsame
    exact hsame

/-- **A one-shot timer that the call does not name** stays as it is, or leaves the set. -/
theorem stepAny_untouched {op : AnyOp Cb} {out : Out Cb} (h : m.Ordered) (hvalid : m.ValidAny op)
    (hleaves : Leaves a op) (honce : a ∈ m.timers → m.isRecurring a = false)
    (hstep : stepAny m op = some (out, m')) : Untouched a m m' := by
  cases op with
  | addEmpty now ms recurring b =>
      cases hstep
      exact untouched_insertTimer hleaves id _
  | call op =>
      cases op with
      | addTimer now ms cb recurring b =>
          cases hstep
          exact untouched_insertTimer hleaves id _
      | cancel b =>
          obtain ⟨t, ok, -, hcall, -⟩ := step_cancel hstep
          exact cancel_untouched hleaves hcall
      | refresh b now =>
          obtain ⟨t, ok, -, hcall, -⟩ := step_refresh hstep
          exact refresh_untouched hleaves hcall
      | reset b ms fromNow now =>
          obtain ⟨t, ok, front, -, hcall, -⟩ := step_reset hstep
          exact reset_untouched hleaves hcall
      | getNextTimer now =>
          cases hstep
          dsimp only
          split
          · exact fun ha => ⟨ha, rfl⟩
          · exact fun ha => ⟨ha, rfl⟩
      | listExpiredCb now nowTimer =>
          cases hstep
          have hexact := listExpiredCb_exact h hvalid now
          intro ha
          rcases (hexact.mem_iff a).mp ha with ⟨hin, hnot⟩ | ⟨hin, hrec⟩
          · exact ⟨hin, hexact.unchanged a hnot⟩
          · rw [honce (mem_timers_of_expiring hin)] at hrec
            cases hrec
      | release b =>
          cases hstep
          exact fun ha => ⟨ha, if_neg (Ne.symm hleaves)⟩

end TimerManager

namespace Clocked

open TimerManager

variable {Cb : Type} {s s' : Clocked Cb} {a : Nat} {now next : UInt64}

/-- As long as the timer is in the set, it is the one-shot timer that was armed. -/
structure Waits (a : Nat) (next : UInt64) (s : Clocked Cb) : Prop where
  ordered : s.manager.Ordered
  previouse : s.manager.previouseTime ≤ s.clock
  object : a ∈ s.manager.timers →
    ∃ t, s.manager.heap a = some t ∧ t.next = next ∧ t.recurring = false

theorem step_waits {op : AnyOp Cb} {out : Out Cb} (h : s.Waits a next)
    (hvalid : s.manager.ValidAny op) (hleaves : Leaves a op)
    (hstep : step s op = some (out, s')) : s'.Waits a next := by
  have hcall := (step_cases hstep).1
  refine ⟨stepAny_ordered h.ordered hvalid hcall, step_previouse h.previouse hstep, fun ha => ?_⟩
  have honce : a ∈ s.manager.timers → s.manager.isRecurring a = false := fun hin => by
    obtain ⟨t, ht, -, hrec⟩ := h.object hin
    simp [isRecurring, ht, hrec]
  obtain ⟨hin, hsame⟩ := stepAny_untouched h.ordered hvalid hleaves honce hcall ha
  rw [hsame]
  exact h.object hin

/-- The call asks for a period that is long enough, and, however the timers and the clock
go on, the callback that schedules the fiber is not returned before the time that was
asked for has passed. -/
def LastsLongEnough (s : Clocked Cb) (call : SleepCall) (now : UInt64) (cb : Cb) (a : Nat) :
    Prop :=
  ∃ period, call.period = some period ∧ call.nanoseconds ≤ period.toNat * 10 ^ 6 ∧
    ∀ out armed, step s (.call (.addTimer now period cb false a)) = some (out, armed) →
      ∀ ops outs s' r, Machine.Meets step (fun s op => s.manager.ValidAny op) armed ops →
        (∀ op ∈ ops, Leaves a op) → Machine.run step armed ops = some (outs, s') →
        s'.clock ≤ r → a ∈ s'.manager.expiring r →
        now.toNat * 10 ^ 6 + call.nanoseconds ≤ r.toNat * 10 ^ 6

/-- The timer of a sleep is in the set. -/
theorem armed_manager {p : UInt64} {cb : Cb} {out : Out Cb} {armed : Clocked Cb}
    (h : s.manager.Ordered) (hnew : s.manager.heap a = none)
    (hstep : step s (.call (.addTimer now p cb false a)) = some (out, armed)) :
    a ∈ armed.manager.timers ∧
      armed.manager.heap a = some { recurring := false, ms := p, next := now + p, cb := some cb } ∧
      armed.manager.Ordered ∧ armed.clock = now := by
  obtain ⟨hcall, -, hclock, -⟩ := step_cases hstep
  have hvalid : s.manager.ValidAny (.call (.addTimer now p cb false a)) := hnew
  have hordered := stepAny_ordered h hvalid hcall
  have hout : a ∉ s.manager.timers := fun hin => by
    have hsome := h.exist a hin
    rw [hnew] at hsome
    cases hsome
  have hmem := (sorted_insert h.sorted hout
    { recurring := false, ms := p, next := now + p, cb := some cb }).2 a
  have hheap := store_heap_self s.manager a
    { recurring := false, ms := p, next := now + p, cb := some cb }
  have hmanager : armed.manager =
      (s.manager.addTimer now p cb false a).2 := (congrArg Prod.snd (Option.some.inj hcall)).symm
  rw [hmanager] at hordered ⊢
  exact ⟨hmem.mpr (.inl rfl), hheap, hordered, hclock⟩

/-- **While nothing wraps around** the timer is not due before its period has passed. -/
theorem not_before {p r : UInt64} {cb : Cb} {out : Out Cb} {outs : List (Out Cb)}
    {armed : Clocked Cb} {ops : List (AnyOp Cb)} (h : s.manager.Ordered)
    (hprevious : s.manager.previouseTime ≤ s.clock) (hnew : s.manager.heap a = none)
    (hfits : IdleLoops.Fits now p)
    (hstep : step s (.call (.addTimer now p cb false a)) = some (out, armed))
    (hvalid : Machine.Meets step (fun s op => s.manager.ValidAny op) armed ops)
    (hleaves : ∀ op ∈ ops, Leaves a op) (hrun : Machine.run step armed ops = some (outs, s'))
    (hr : s'.clock ≤ r) (hdue : a ∈ s'.manager.expiring r) :
    now.toNat + p.toNat ≤ r.toNat := by
  obtain ⟨-, hheap, hordered, -⟩ := armed_manager h hnew hstep
  have hwaits : armed.Waits a (now + p) :=
    ⟨hordered, step_previouse hprevious hstep, fun _ => ⟨_, hheap, rfl, rfl⟩⟩
  have hgo : ∀ (s : Clocked Cb) op out s', s.Waits a (now + p) →
      s.manager.ValidAny op ∧ Leaves a op → step s op = some (out, s') →
      s'.Waits a (now + p) ∧ True :=
    fun s op out s' h hop hcall => ⟨step_waits h hop.1 hop.2 hcall, trivial⟩
  have hend := (Machine.run_invariant_of_meets hgo hwaits
    (hvalid.and (Machine.meets_of_mem hleaves armed)) hrun).1
  rw [expiring_eq_due (UInt64.le_trans hend.previouse hr), due, List.mem_filter,
    decide_eq_true_eq, UInt64.le_iff_toNat_le] at hdue
  obtain ⟨t, ht, hnext, -⟩ := hend.object hdue.1
  rw [next_eq ht, hnext, toNat_add_of_fits hfits] at hdue
  exact hdue.2

/-- A sum that wraps around is due at once. -/
theorem due_at_once {p : UInt64} {cb : Cb} {out : Out Cb} {armed : Clocked Cb}
    (h : s.manager.Ordered) (hprevious : s.manager.previouseTime ≤ s.clock)
    (hnew : s.manager.heap a = none) (hwraps : ¬ IdleLoops.Fits now p)
    (hstep : step s (.call (.addTimer now p cb false a)) = some (out, armed)) :
    a ∈ armed.manager.expiring now := by
  obtain ⟨hin, hheap, -, hclock⟩ := armed_manager h hnew hstep
  rw [expiring_eq_due (hclock ▸ step_previouse hprevious hstep), due, List.mem_filter,
    decide_eq_true_eq, next_eq hheap, UInt64.le_iff_toNat_le]
  refine ⟨hin, ?_⟩
  have hp := p.toNat_lt
  have hnow := now.toNat_lt
  unfold IdleLoops.Fits at hwraps
  show (now + p).toNat ≤ now.toNat
  rw [UInt64.toNat_add]
  omega

/-- The timer can be added at every reading that is not earlier than the last one. -/
theorem exists_armed (hclock : s.clock ≤ now) (p : UInt64) (cb : Cb) :
    ∃ out armed, step s (.call (.addTimer now p cb false a)) = some (out, armed) := by
  have hread : s.clock ≤ (reading (.call (.addTimer now p cb false a))).getD s.clock := hclock
  rw [step, if_pos hread]
  exact ⟨_, _, rfl⟩

theorem lasts_iff (h : s.manager.Ordered) (hprevious : s.manager.previouseTime ≤ s.clock)
    (hclock : s.clock ≤ now) (hnew : s.manager.heap a = none) (call : SleepCall) (cb : Cb) :
    s.LastsLongEnough call now cb a ↔ call.Enough now := by
  constructor
  · rintro ⟨p, hp, henough, hlasts⟩
    refine ⟨p, hp, henough, ?_⟩
    by_contra hwraps
    obtain ⟨out, armed, hstep⟩ := exists_armed (a := a) hclock p cb
    have hdue := due_at_once h hprevious hnew hwraps hstep
    have harmed := (armed_manager h hnew hstep).2.2.2
    -- the clock stands still, and nothing else is called
    have hlate := hlasts out armed hstep [] [] armed now trivial (by simp) rfl
      (UInt64.le_of_eq harmed) hdue
    have hzero := SleepCall.period_of_zero hp (by omega)
    have hnow := now.toNat_lt
    refine hwraps ?_
    unfold IdleLoops.Fits
    omega
  · rintro ⟨p, hp, henough, hfits⟩
    refine ⟨p, hp, henough, ?_⟩
    intro out armed hstep ops outs s' r hvalid hleaves hrun hr hdue
    have hpassed := not_before h hprevious hnew hfits hstep hvalid hleaves hrun hr hdue
    omega

/-- Every run keeps the order of the set, and its last expiry is not ahead of the clock. -/
theorem run_ordered (start : UInt64) {ops : List (AnyOp Cb)} {outs : List (Out Cb)}
    (hvalid : Machine.Meets step (fun s op => s.manager.ValidAny op) (new start) ops)
    (hrun : Machine.run step (new start) ops = some (outs, s)) :
    s.manager.Ordered ∧ s.manager.previouseTime ≤ s.clock := by
  have hstep : ∀ (s : Clocked Cb) op out s',
      s.manager.Ordered ∧ s.manager.previouseTime ≤ s.clock → s.manager.ValidAny op →
        step s op = some (out, s') →
          (s'.manager.Ordered ∧ s'.manager.previouseTime ≤ s'.clock) ∧ True :=
    fun s op out s' h hop hcall =>
      ⟨⟨stepAny_ordered h.1 hop (step_cases hcall).1, step_previouse h.2 hcall⟩, trivial⟩
  have hnew : (new start : Clocked Cb).OnTime := new_onTime start
  exact (Machine.run_invariant_of_meets hstep ⟨hnew.ordered, hnew.previouse⟩ hvalid hrun).1

/-- **A hooked sleep lasts long enough** exactly when its conversion loses nothing and the
sum with the clock reading does not wrap around. -/
theorem lastsLongEnough_iff (start : UInt64) {ops : List (AnyOp Cb)} {outs : List (Out Cb)}
    (hvalid : Machine.Meets step (fun s op => s.manager.ValidAny op) (new start) ops)
    (hrun : Machine.run step (new start) ops = some (outs, s)) (hclock : s.clock ≤ now)
    (hnew : s.manager.heap a = none) (call : SleepCall) (cb : Cb) :
    s.LastsLongEnough call now cb a ↔ call.KeepsTime now := by
  obtain ⟨hordered, hprevious⟩ := run_ordered start hvalid hrun
  rw [lasts_iff hordered hprevious hclock hnew, SleepCall.enough_iff]

/-- Two seconds, beside the timer of another fiber. -/
theorem lastsLongEnough_sleep :
    let ops : List (AnyOp Nat) := [.call (.addTimer 100 50 0 true 8),
      .call (.listExpiredCb 150 6)]
    ∃ outs s, Machine.run step (new 0 : Clocked Nat) ops = some (outs, s) ∧
      s.LastsLongEnough (.sleep 2) 160 7 4 := by
  intro ops
  have hvalid : Machine.Meets step (fun s op => s.manager.ValidAny op) (new 0 : Clocked Nat)
      ops := by
    decide
  have hend : (Machine.run step (new 0 : Clocked Nat) ops).any (fun r =>
      decide (r.2.clock ≤ 160 ∧ r.2.manager.heap 4 = none)) = true := by
    decide
  obtain ⟨⟨outs, s⟩, hrun, hcond⟩ := (Option.any_eq_true _ _).mp hend
  obtain ⟨hclock, hnew⟩ := of_decide_eq_true hcond
  have hkeeps : SleepCall.KeepsTime 160 (.sleep 2) := by decide
  exact ⟨outs, s, hrun, (lastsLongEnough_iff 0 hvalid hrun hclock hnew _ 7).mpr hkeeps⟩

/-- A `usleep` of 999 microseconds, a `sleep` of 4294968 seconds, whose period is 704
milliseconds, and a `nanosleep` of one nanosecond. -/
theorem not_lastsLongEnough :
    let s : Clocked Nat := new 0
    ¬ s.LastsLongEnough (.usleep 999) 0 7 4 ∧ ¬ s.LastsLongEnough (.sleep 4294968) 0 7 4 ∧
      ∀ req : Timespec, req.sec = 0 → req.nsec = 1 →
        ¬ s.LastsLongEnough (.nanosleep req) 0 7 4 := by
  intro s
  have hordered : s.manager.Ordered := new_ordered 0
  have hiff : ∀ call, s.LastsLongEnough call 0 7 4 ↔ call.Enough 0 := fun call =>
    lasts_iff hordered (UInt64.le_refl 0) (UInt64.le_refl 0) rfl call 7
  simp only [hiff, SleepCall.enough_iff]
  refine ⟨by decide, by decide, fun req hsec hnsec => ?_⟩
  simp only [SleepCall.KeepsTime, Timespec.ms, hsec, hnsec]
  decide

end Clocked

end Mingo
