import Mingo.Timer.Expiry
import Mingo.Timer.Idle

/-!
# Timers that fire early

`m_next` is a sum of 64 bits that wraps around.  While no arming wraps, the
`m_next` of a timer in the set is the time it was armed at plus its period, in
exact arithmetic, and so no callback is returned before that time.

The start time of a timer is kept beside the manager (`Clocked`): the clock
reading of `addTimer`, of a `refresh` or a `reset(ms, true)` that succeeds, and
of the firing of a recurring timer; `reset(ms, false)` keeps it.

* `Timed` -- the invariant, `step_timed` one call;
* `never_early` -- every run.
-/

namespace Mingo

namespace TimerManager

variable {Cb : Type} {m m' : TimerManager Cb} {a : Nat} {t : Timer Cb} {now : UInt64}
  {starts : Nat → Nat}

/-! ### Start times -/

/-- The timer is in the set and has a callback. -/
def isPending (m : TimerManager Cb) (a : Nat) : Bool :=
  decide (a ∈ m.timers) && (m.callback a).isSome

/-- The start times after a call. -/
def started (m : TimerManager Cb) (starts : Nat → Nat) : AnyOp Cb → Nat → Nat
  | .call (.addTimer now _ _ _ a) => Function.update starts a now.toNat
  | .addEmpty now _ _ a => Function.update starts a now.toNat
  | .call (.refresh a now) =>
      if m.isPending a then Function.update starts a now.toNat else starts
  | .call (.reset a _ fromNow now) =>
      if fromNow && m.isPending a then Function.update starts a now.toNat else starts
  | .call (.listExpiredCb now _) => fun a =>
      if decide (a ∈ m.expiring now) && m.isRecurring a then now.toNat else starts a
  | _ => starts

/-- The clock reading of a call that takes one. -/
def reading : AnyOp Cb → Option UInt64
  | .call (.addTimer now _ _ _ _) => some now
  | .addEmpty now _ _ _ => some now
  | .call (.refresh _ now) => some now
  | .call (.reset _ _ fromNow now) => if fromNow then some now else none
  | .call (.getNextTimer now) => some now
  | .call (.listExpiredCb now _) => some now
  | .call (.cancel _) => none
  | .call (.release _) => none

/-- No arming of the call wraps around. -/
def ArmsExactly (m : TimerManager Cb) : AnyOp Cb → Prop
  | .call (.addTimer now ms _ _ _) => IdleLoops.Fits now ms
  | .addEmpty now ms _ _ => IdleLoops.Fits now ms
  | .call (.refresh a now) =>
      m.isPending a = true → ∀ t ∈ m.heap a, IdleLoops.Fits now t.ms
  | .call (.reset a ms fromNow now) =>
      m.isPending a = true →
        ∀ t ∈ m.heap a, IdleLoops.Fits (if fromNow then now else t.next - t.ms) ms
  | .call (.listExpiredCb now _) =>
      ∀ a ∈ m.expiring now, ∀ t ∈ m.heap a, t.recurring = true → IdleLoops.Fits now t.ms
  | _ => True

instance (m : TimerManager Cb) : DecidablePred m.ArmsExactly
  | .call (.addTimer now ms _ _ _) => inferInstanceAs (Decidable (IdleLoops.Fits now ms))
  | .addEmpty now ms _ _ => inferInstanceAs (Decidable (IdleLoops.Fits now ms))
  | .call (.refresh a now) =>
      inferInstanceAs (Decidable (m.isPending a = true → ∀ t ∈ m.heap a, IdleLoops.Fits now t.ms))
  | .call (.reset a ms fromNow now) =>
      inferInstanceAs (Decidable (m.isPending a = true →
        ∀ t ∈ m.heap a, IdleLoops.Fits (if fromNow then now else t.next - t.ms) ms))
  | .call (.listExpiredCb now _) =>
      inferInstanceAs (Decidable (∀ a ∈ m.expiring now, ∀ t ∈ m.heap a,
        t.recurring = true → IdleLoops.Fits now t.ms))
  | .call (.cancel _) | .call (.getNextTimer _) | .call (.release _) => isTrue trivial

/-- Every timer of the set is due its period after its start. -/
def Timed (m : TimerManager Cb) (starts : Nat → Nat) : Prop :=
  ∀ a ∈ m.timers, ∀ t, m.heap a = some t → t.next.toNat = starts a + t.ms.toNat

end TimerManager

/-- The manager, the last clock reading and the start times. -/
structure Clocked (Cb : Type) where
  manager : TimerManager Cb
  clock : UInt64
  starts : Nat → Nat

namespace Clocked

variable {Cb : Type}

def new (start : UInt64) : Clocked Cb where
  manager := TimerManager.new start
  clock := start
  starts := fun _ => 0

/-- A call under a clock that does not go back. -/
def step : Machine.Step (Clocked Cb) (TimerManager.AnyOp Cb) (TimerManager.Out Cb)
  | s, op =>
      if s.clock ≤ (TimerManager.reading op).getD s.clock then
        (TimerManager.stepAny s.manager op).map fun r =>
          (r.1, {
            manager := r.2
            clock := (TimerManager.reading op).getD s.clock
            starts := s.manager.started s.starts op })
      else none

/-- `cbs`, returned at the reading `now`, are the callbacks of timers whose period has
passed since they were armed. -/
structure NeverEarly (s : Clocked Cb) (now : UInt64) (cbs : List (Option Cb)) : Prop where
  callbacks : cbs = (s.manager.expiring now).map s.manager.callback
  passed : ∀ a ∈ s.manager.expiring now, ∃ t, s.manager.heap a = some t ∧
    s.starts a + t.ms.toNat ≤ now.toNat

end Clocked

namespace TimerManager

variable {Cb : Type} {m m' : TimerManager Cb} {a : Nat} {t : Timer Cb} {now : UInt64}
  {starts : Nat → Nat}

/-! ### One call -/

theorem toNat_add_of_fits {start ms : UInt64} (h : IdleLoops.Fits start ms) :
    (start + ms).toNat = start.toNat + ms.toNat := by
  rw [UInt64.toNat_add]
  exact Nat.mod_eq_of_lt h

/-- A timer is put into the set with a start time, the others stay. -/
theorem Timed.insert {starts' : Nat → Nat}
    (h : ∀ b ∈ m.timers, b ≠ a → ∀ t, m.heap b = some t → t.next.toNat = starts b + t.ms.toNat)
    (hkeep : ∀ b, b ≠ a → starts' b = starts b) (ht : t.next.toNat = starts' a + t.ms.toNat) :
    ((m.store a t).insertTimer a).2.Timed starts' := by
  intro b hb t' ht'
  have hheap : (m.store a t).heap b = some t' := ht'
  by_cases hne : b = a
  · subst hne
    rw [store_heap_self] at hheap
    cases hheap
    exact ht
  · rw [store_heap_ne m t hne] at hheap
    rw [hkeep b hne]
    exact h b ((OrderedSet.mem_of_mem_insert hb).resolve_left hne) hne t' hheap

theorem isPending_of_armed (h : m.Ordered) (ht : m.heap a = some t) {cb : Cb}
    (hcb : t.cb = some cb) : m.isPending a = true := by
  have ha : a ∈ m.timers := h.armed a ⟨t, ht, by simp [hcb]⟩
  simp [isPending, ha, callback, ht, hcb]

theorem not_isPending_of_none (ht : m.heap a = some t) (hcb : t.cb = none) :
    m.isPending a = false := by
  simp [isPending, callback, ht, hcb]

/-- A timer that a call does not find has no callback. -/
theorem not_isPending_of_not_found (h : m.Ordered) (ht : m.heap a = some t)
    (hnot : t.cb = none ∨ OrderedSet.find m.before m.timers a = none) :
    m.isPending a = false := by
  cases hcb : t.cb with
  | none => exact not_isPending_of_none ht hcb
  | some cb =>
      obtain ⟨timers, herase, -⟩ := h.takeOut (h.armed a ⟨t, ht, by simp [hcb]⟩)
      rcases hnot with hnone | hfind
      · rw [hcb] at hnone
        cases hnone
      · rw [hfind] at herase
        cases herase

/-- The start times of the timers that are left. -/
theorem Timed.takenOut (htimed : m.Timed starts) {timers : List Nat}
    (hmem : ∀ b, b ∈ timers ↔ b ∈ m.timers ∧ b ≠ a) :
    ∀ b ∈ timers, b ≠ a → ∀ t, m.heap b = some t → t.next.toNat = starts b + t.ms.toNat := by
  intro b hb _
  exact htimed b ((hmem b).mp hb).1

theorem cancel_timed {ok : Bool} (h : m.Ordered) (htimed : m.Timed starts)
    (ht : m.heap a = some t) (hcall : m.cancel a t = some (ok, m')) : m'.Timed starts := by
  obtain ⟨-, rfl⟩ | ⟨cb, timers, hcb, herase, rfl⟩ := cancel_cases hcall
  · exact htimed
  · have hbefore : (m.store a { t with cb := none }).before = m.before :=
      before_store_same_next m ht rfl
    rw [hbefore] at herase
    obtain ⟨-, hmem⟩ := h.takenOut (h.armed a ⟨t, ht, by simp [hcb]⟩) herase
    intro b hb t' ht'
    obtain ⟨hin, hne⟩ := (hmem b).mp hb
    exact htimed b hin t' ((store_heap_ne m _ hne).symm.trans ht')

theorem refresh_timed {ok : Bool} (h : m.Ordered) (htimed : m.Timed starts)
    (ht : m.heap a = some t) (hfits : m.ArmsExactly (.call (.refresh a now)))
    (hcall : m.refresh a t now = some (ok, m')) :
    m'.Timed (m.started starts (.call (.refresh a now))) := by
  obtain ⟨hnot, rfl⟩ | ⟨cb, timers, hcb, herase, rfl⟩ := refresh_cases hcall
  · rw [started, not_isPending_of_not_found h ht hnot]
    exact htimed
  · have hpending := isPending_of_armed h ht hcb
    obtain ⟨-, hmem⟩ := h.takenOut (h.armed a ⟨t, ht, by simp [hcb]⟩) herase
    rw [started, if_pos hpending]
    refine Timed.insert (m := { m with timers }) (htimed.takenOut hmem) ?_ ?_
    · intro b hne
      exact Function.update_of_ne hne _ _
    · rw [Function.update_self]
      exact toNat_add_of_fits (hfits hpending t ht)

theorem reset_timed {ok front : Bool} {ms : UInt64} {fromNow : Bool} (h : m.Ordered)
    (htimed : m.Timed starts) (ht : m.heap a = some t)
    (hfits : m.ArmsExactly (.call (.reset a ms fromNow now)))
    (hcall : m.reset a t ms fromNow now = some (ok, front, m')) :
    m'.Timed (m.started starts (.call (.reset a ms fromNow now))) := by
  obtain ⟨hnot, -, hsame⟩ | ⟨cb, timers, hcb, herase, hinsert⟩ := reset_cases hcall
  · have hkeep : (fromNow && m.isPending a) = false := by
      rcases hnot with hfrom | hnot
      · rw [hfrom, Bool.false_and]
      · rw [not_isPending_of_not_found h ht hnot, Bool.and_false]
    rw [started, hkeep, hsame]
    exact htimed
  · have ha : a ∈ m.timers := h.armed a ⟨t, ht, by simp [hcb]⟩
    have hpending := isPending_of_armed h ht hcb
    obtain ⟨-, hmem⟩ := h.takenOut ha herase
    have hsum := toNat_add_of_fits (hfits hpending t ht)
    have hothers := htimed.takenOut hmem
    obtain rfl : _ = m' := congrArg Prod.snd hinsert
    rw [started, hpending, Bool.and_true]
    cases fromNow with
    | true =>
        refine Timed.insert (m := { m with timers }) hothers ?_ ?_
        · intro b hne
          exact Function.update_of_ne hne _ _
        · show (now + ms).toNat = Function.update starts a now.toNat a + ms.toNat
          rw [Function.update_self]
          exact hsum
    | false =>
        refine Timed.insert (m := { m with timers }) hothers (fun _ _ => rfl) ?_
        have hstart : (t.next - t.ms).toNat = starts a := by
          have hnext := htimed a ha t ht
          rw [UInt64.toNat_sub_of_le _ _ (UInt64.le_iff_toNat_le.mpr (by omega))]
          omega
        show (t.next - t.ms + ms).toNat = starts a + ms.toNat
        rw [← hstart]
        exact hsum

theorem listExpiredCb_timed {cbs : List (Option Cb)} {nowTimer : Nat} (htimed : m.Timed starts)
    (hfits : m.ArmsExactly (.call (.listExpiredCb now nowTimer)))
    (hexact : ExpiresExactly m now cbs m') :
    m'.Timed (m.started starts (.call (.listExpiredCb now nowTimer))) := by
  intro b hb t' ht'
  have hstarted : m.started starts (.call (.listExpiredCb now nowTimer)) b =
      if decide (b ∈ m.expiring now) && m.isRecurring b then now.toNat else starts b := rfl
  rw [hstarted]
  rcases (hexact.mem_iff b).mp hb with ⟨hin, hnot⟩ | ⟨hin, hrec⟩
  · rw [decide_eq_false hnot, Bool.false_and, if_neg Bool.false_ne_true]
    exact htimed b hin t' ((hexact.unchanged b hnot).symm.trans ht')
  · obtain ⟨t, ht⟩ := Option.isSome_iff_exists.mp (hexact.exist b hin)
    have hrec' : t.recurring = true := by simpa [isRecurring, ht] using hrec
    rw [hexact.rearmed b hin t ht hrec'] at ht'
    cases ht'
    rw [decide_eq_true hin, hrec, Bool.and_self, if_pos rfl]
    exact toNat_add_of_fits (hfits b hin t ht hrec')

/-- **One call** keeps the start times. -/
theorem stepAny_timed {op : AnyOp Cb} {out : Out Cb} (h : m.Ordered) (htimed : m.Timed starts)
    (hvalid : m.ValidAny op) (hfits : m.ArmsExactly op) (hstep : stepAny m op = some (out, m')) :
    m'.Timed (m.started starts op) := by
  cases op with
  | addEmpty now ms recurring a =>
      cases hstep
      refine Timed.insert (fun b hb _ => htimed b hb) ?_ ?_
      · intro b hne
        exact Function.update_of_ne hne _ _
      · rw [started, Function.update_self]
        exact toNat_add_of_fits hfits
  | call op =>
      cases op with
      | addTimer now ms cb recurring a =>
          cases hstep
          refine Timed.insert (fun b hb _ => htimed b hb) ?_ ?_
          · intro b hne
            exact Function.update_of_ne hne _ _
          · rw [started, Function.update_self]
            exact toNat_add_of_fits hfits
      | cancel a =>
          obtain ⟨t, ok, ht, hcall, -⟩ := step_cancel hstep
          exact cancel_timed h htimed ht hcall
      | refresh a now =>
          obtain ⟨t, ok, ht, hcall, -⟩ := step_refresh hstep
          exact refresh_timed h htimed ht hfits hcall
      | reset a ms fromNow now =>
          obtain ⟨t, ok, front, ht, hcall, -⟩ := step_reset hstep
          exact reset_timed h htimed ht hfits hcall
      | getNextTimer now =>
          cases hstep
          dsimp only
          split
          · exact htimed
          · exact htimed
      | listExpiredCb now nowTimer =>
          cases hstep
          exact listExpiredCb_timed htimed hfits (listExpiredCb_exact h hvalid now)
      | release a =>
          cases hstep
          intro b hb t' ht'
          have hne : b ≠ a := fun heq => hvalid.2 (heq ▸ hb)
          exact htimed b hb t' ((if_neg hne).symm.trans ht')

/-! ### The clock never seems to have gone back -/

theorem fire_previouseTime (now : UInt64) (expired : List Nat) :
    ∀ m : TimerManager Cb, (fire now expired m).2.previouseTime = m.previouseTime := by
  induction expired with
  | nil => intro m; rfl
  | cons a expired ih =>
      intro m
      cases ht : m.heap a with
      | none =>
          simp only [fire, ht]
          exact ih m
      | some t =>
          obtain ⟨timers, -, hfire⟩ := fire_cons now ht expired
          rw [hfire]
          exact ih _

theorem listExpiredCb_previouseTime (m : TimerManager Cb) (now : UInt64) (nowTimer : Nat) :
    (m.listExpiredCb now nowTimer).2.previouseTime = m.previouseTime ∨
      (m.listExpiredCb now nowTimer).2.previouseTime = now := by
  unfold listExpiredCb
  split
  · exact .inl rfl
  · right
    dsimp only
    split
    · rfl
    · rw [fire_previouseTime]
      rfl

/-- Only `listExpiredCb` writes `m_previouseTime`. -/
theorem stepAny_previouseTime {op : AnyOp Cb} {out : Out Cb}
    (hstep : stepAny m op = some (out, m')) :
    m'.previouseTime = m.previouseTime ∨ reading op = some m'.previouseTime := by
  cases op with
  | addEmpty now ms recurring a =>
      cases hstep
      exact .inl rfl
  | call op =>
      cases op with
      | addTimer now ms cb recurring a =>
          cases hstep
          exact .inl rfl
      | cancel a =>
          left
          obtain ⟨t, ok, -, hcall, -⟩ := step_cancel hstep
          obtain ⟨-, rfl⟩ | ⟨cb, timers, -, -, rfl⟩ := cancel_cases hcall
          · rfl
          · rfl
      | refresh a now =>
          left
          obtain ⟨t, ok, -, hcall, -⟩ := step_refresh hstep
          obtain ⟨-, rfl⟩ | ⟨cb, timers, -, -, rfl⟩ := refresh_cases hcall
          · rfl
          · rfl
      | reset a ms fromNow now =>
          left
          obtain ⟨t, ok, front, -, hcall, -⟩ := step_reset hstep
          obtain ⟨-, -, rfl⟩ | ⟨cb, timers, -, -, hinsert⟩ := reset_cases hcall
          · rfl
          · exact congrArg (fun r => r.2.previouseTime) hinsert.symm
      | getNextTimer now =>
          cases hstep
          left
          dsimp only
          split
          · rfl
          · rfl
      | listExpiredCb now nowTimer =>
          cases hstep
          exact (listExpiredCb_previouseTime m now nowTimer).imp id fun h => congrArg some h.symm
      | release a =>
          cases hstep
          exact .inl rfl

/-- No rollover is seen by a reading that is not earlier than the last one. -/
theorem expiring_eq_due (h : m.previouseTime ≤ now) : m.expiring now = m.due now := by
  have hnot : ¬ now < m.previouseTime := fun hlt => by
    rw [UInt64.lt_iff_toNat_lt] at hlt
    rw [UInt64.le_iff_toNat_le] at h
    omega
  have hroll : (m.detectClockRollover now).1 = false := by
    simp [detectClockRollover, hnot]
  rw [expiring, hroll, if_neg Bool.false_ne_true]

end TimerManager

namespace Clocked

open TimerManager

variable {Cb : Type} {s s' : Clocked Cb} {now : UInt64}

/-- The invariant of a run. -/
structure OnTime (s : Clocked Cb) : Prop where
  ordered : s.manager.Ordered
  timed : s.manager.Timed s.starts
  previouse : s.manager.previouseTime ≤ s.clock

theorem new_onTime (start : UInt64) : (new start : Clocked Cb).OnTime :=
  ⟨new_ordered start, by simp [new, Timed, TimerManager.new], UInt64.le_refl start⟩

/-- A call of the manager, at a reading that is not earlier than the last one. -/
theorem step_cases {op : AnyOp Cb} {out : Out Cb} (hstep : step s op = some (out, s')) :
    stepAny s.manager op = some (out, s'.manager) ∧ s.clock ≤ s'.clock ∧
      s'.clock = (reading op).getD s.clock ∧ s'.starts = s.manager.started s.starts op := by
  by_cases hclock : s.clock ≤ (reading op).getD s.clock
  · rw [step, if_pos hclock] at hstep
    obtain ⟨⟨out', m⟩, hcall, heq⟩ := Option.map_eq_some_iff.mp hstep
    cases heq
    exact ⟨hcall, hclock, rfl, rfl⟩
  · rw [step, if_neg hclock] at hstep
    cases hstep

/-- The reading of the last expiry is never ahead of the clock. -/
theorem step_previouse {op : AnyOp Cb} {out : Out Cb} (h : s.manager.previouseTime ≤ s.clock)
    (hstep : step s op = some (out, s')) : s'.manager.previouseTime ≤ s'.clock := by
  obtain ⟨hcall, hclock, hnow, -⟩ := step_cases hstep
  rcases stepAny_previouseTime hcall with hsame | hread
  · rw [hsame]
    exact UInt64.le_trans h hclock
  · rw [hnow, hread]
    exact UInt64.le_refl _

theorem step_onTime {op : AnyOp Cb} {out : Out Cb} (h : s.OnTime) (hvalid : s.manager.ValidAny op)
    (hfits : s.manager.ArmsExactly op) (hstep : step s op = some (out, s')) : s'.OnTime := by
  obtain ⟨hcall, -, -, hstarts⟩ := step_cases hstep
  refine ⟨stepAny_ordered h.ordered hvalid hcall, ?_, step_previouse h.previouse hstep⟩
  rw [hstarts]
  exact stepAny_timed h.ordered h.timed hvalid hfits hcall

/-- What is due has been waiting for its period. -/
theorem OnTime.neverEarly (h : s.OnTime) (hclock : s.clock ≤ now) {nowTimer : Nat}
    (hprobe : s.manager.heap nowTimer = none) :
    s.NeverEarly now (s.manager.listExpiredCb now nowTimer).1 := by
  refine ⟨(listExpiredCb_exact h.ordered hprobe now).callbacks, ?_⟩
  intro a ha
  rw [expiring_eq_due (UInt64.le_trans h.previouse hclock), due, List.mem_filter,
    decide_eq_true_eq, UInt64.le_iff_toNat_le] at ha
  obtain ⟨t, ht⟩ := Option.isSome_iff_exists.mp (h.ordered.exist a ha.1)
  rw [next_eq ht, h.timed a ha.1 t ht] at ha
  exact ⟨t, ht, ha.2⟩

/-- **Timers never fire early** in a run under a clock that does not go back, as long as no
arming wraps around: whenever `listExpiredCb` returns the callback of a timer, its period
has passed since its start. -/
theorem never_early (start : UInt64) {ops : List (AnyOp Cb)} {outs : List (Out Cb)}
    (hvalid : Machine.Meets step (fun s op => s.manager.ValidAny op) (new start) ops)
    (hfits : Machine.Meets step (fun s op => s.manager.ArmsExactly op) (new start) ops)
    (hrun : Machine.run step (new start) ops = some (outs, s)) (hclock : s.clock ≤ now)
    {nowTimer : Nat} (hprobe : s.manager.heap nowTimer = none) :
    s.NeverEarly now (s.manager.listExpiredCb now nowTimer).1 := by
  have hstep : ∀ (s : Clocked Cb) op out s', s.OnTime →
      s.manager.ValidAny op ∧ s.manager.ArmsExactly op → step s op = some (out, s') →
      s'.OnTime ∧ True :=
    fun s op out s' h hop hcall => ⟨step_onTime h hop.1 hop.2 hcall, trivial⟩
  exact (Machine.run_invariant_of_meets hstep (new_onTime start) (hvalid.and hfits)
    hrun).1.neverEarly hclock hprobe

/-- A recurring timer that has fired once, and a one-shot timer whose period is changed
from the time it was added. -/
theorem never_early_recurring :
    let ops : List (AnyOp Nat) := [.call (.addTimer 100 50 0 true 8),
      .call (.addTimer 100 90 1 false 4), .call (.listExpiredCb 150 6),
      .call (.reset 4 100 false 160)]
    ∃ outs s, Machine.run step (new 0 : Clocked Nat) ops = some (outs, s) ∧
      s.starts 8 = 150 ∧ s.starts 4 = 100 ∧
      s.NeverEarly 200 (s.manager.listExpiredCb 200 6).1 := by
  intro ops
  have hvalid : Machine.Meets step (fun s op => s.manager.ValidAny op) (new 0 : Clocked Nat)
      ops := by
    decide
  have hfits : Machine.Meets step (fun s op => s.manager.ArmsExactly op) (new 0 : Clocked Nat)
      ops := by
    decide
  have hend : (Machine.run step (new 0 : Clocked Nat) ops).any (fun r =>
      decide (r.2.starts 8 = 150 ∧ r.2.starts 4 = 100 ∧ r.2.clock ≤ 200 ∧
        r.2.manager.heap 6 = none)) = true := by
    decide
  obtain ⟨⟨outs, s⟩, hrun, hcond⟩ := (Option.any_eq_true _ _).mp hend
  obtain ⟨h8, h4, hclock, hprobe⟩ := of_decide_eq_true hcond
  exact ⟨outs, s, hrun, h8, h4, never_early 0 hvalid hfits hrun hclock hprobe⟩

/-- The longest period: `m_next` is one before the clock reading, and the callback is
returned at once. -/
theorem fires_early :
    let ops : List (AnyOp Nat) := [.call (.addTimer 1000 0xFFFFFFFFFFFFFFFF 7 false 8)]
    ∃ outs s, Machine.run step (new 1000 : Clocked Nat) ops = some (outs, s) ∧ s.clock ≤ 1000 ∧
      s.manager.heap 5 = none ∧ (s.manager.listExpiredCb 1000 5).1 = [some 7] ∧
      ¬ s.NeverEarly 1000 (s.manager.listExpiredCb 1000 5).1 := by
  intro ops
  have hend : (Machine.run step (new 1000 : Clocked Nat) ops).any (fun r =>
      decide (r.2.clock ≤ 1000 ∧ r.2.manager.heap 5 = none ∧
        (r.2.manager.listExpiredCb 1000 5).1 = [some 7] ∧ 8 ∈ r.2.manager.expiring 1000 ∧
        r.2.starts 8 = 1000 ∧
        (r.2.manager.heap 8).map Timer.ms = some 0xFFFFFFFFFFFFFFFF)) = true := by
    decide
  obtain ⟨⟨outs, s⟩, hrun, hcond⟩ := (Option.any_eq_true _ _).mp hend
  obtain ⟨hclock, hprobe, hcbs, hdue, hstart, hms⟩ := of_decide_eq_true hcond
  refine ⟨outs, s, hrun, hclock, hprobe, hcbs, fun hnever => ?_⟩
  obtain ⟨t, ht, hpassed⟩ := hnever.passed 8 hdue
  rw [ht, Option.map_some, Option.some_inj] at hms
  rw [hstart, hms] at hpassed
  exact absurd hpassed (by decide)

end Clocked

end Mingo
