import Mingo.Timer.Early

/-!
# What the timer calls report

`cancel` and `refresh` answer whether the timer was pending.  `reset` takes a
shortcut before it looks at the timer: with the period the timer has already,
and not from now on, there is nothing to do, and the answer is `true`, also for
a timer that has fired or was cancelled.

* `isPending_eq` -- in an ordered state a timer is pending while it has a
  callback;
* `reportsTruth_iff` -- when the answers are right.
-/

namespace Mingo

namespace TimerManager

variable {Cb : Type} {m m' : TimerManager Cb} {a : Nat} {t : Timer Cb} {now ms : UInt64}
  {ok front fromNow : Bool}

/-- The answer says whether the timer was pending, and `false` has changed nothing. -/
structure Truthful (m : TimerManager Cb) (a : Nat) (ok : Bool) (m' : TimerManager Cb) : Prop where
  answer : ok = m.isPending a
  unchanged : ok = false → m' = m

/-- The timer is pending with period `ms` at the start time plus `ms`. -/
structure ArmedAt (m : TimerManager Cb) (a : Nat) (start ms : UInt64) : Prop where
  pending : m.isPending a = true
  object : ∃ t, m.heap a = some t ∧ t.ms = ms ∧ t.next = start + ms

/-- The call answers with the truth. -/
def ReportsTruth (m : TimerManager Cb) : Op Cb → Prop
  | .cancel a => ∃ ok m', step m (.cancel a) = some (.result ok false, m') ∧ m.Truthful a ok m'
  | .refresh a now =>
      ∃ ok m', step m (.refresh a now) = some (.result ok false, m') ∧ m.Truthful a ok m'
  | .reset a ms fromNow now =>
      ∃ ok front m', step m (.reset a ms fromNow now) = some (.result ok front, m') ∧
        m.Truthful a ok m' ∧ (ok = true → ∀ t, m.heap a = some t →
          m'.ArmedAt a (if fromNow then now else t.next - t.ms) ms)
  | _ => True

/-- `reset` with the present period, not from now on, of a timer that is not pending. -/
def skipsCheck (m : TimerManager Cb) : Op Cb → Bool
  | .reset a ms fromNow _ =>
      !fromNow && (m.heap a).any (fun t => decide (ms = t.ms)) && !m.isPending a
  | _ => false

theorem isPending_eq (h : m.Ordered) (ht : m.heap a = some t) : m.isPending a = t.cb.isSome := by
  cases hcb : t.cb with
  | none => exact not_isPending_of_none ht hcb
  | some cb => exact isPending_of_armed h ht hcb

theorem cancel_truthful (h : m.Ordered) (ht : m.heap a = some t) :
    ∃ ok m', m.cancel a t = some (ok, m') ∧ m.Truthful a ok m' := by
  have hpending := isPending_eq h ht
  cases hcb : t.cb with
  | none =>
      rw [hcb] at hpending
      exact ⟨false, m, by simp only [cancel, hcb], hpending.symm, fun _ => rfl⟩
  | some cb =>
      rw [hcb] at hpending
      have hbefore : (m.store a { t with cb := none }).before = m.before :=
        before_store_same_next m ht rfl
      obtain ⟨timers, herase, -⟩ := h.takeOut (h.armed a ⟨t, ht, by simp [hcb]⟩)
      refine ⟨true, { m.store a { t with cb := none } with timers }, ?_, hpending.symm, ?_⟩
      · simp only [cancel, hcb, hbefore, store_timers, herase, Option.map_some]
      · intro hfalse
        cases hfalse

theorem refresh_truthful (h : m.Ordered) (ht : m.heap a = some t) (now : UInt64) :
    ∃ ok m', m.refresh a t now = some (ok, m') ∧ m.Truthful a ok m' := by
  have hpending := isPending_eq h ht
  cases hcb : t.cb with
  | none =>
      rw [hcb] at hpending
      exact ⟨false, m, by simp only [refresh, hcb], hpending.symm, fun _ => rfl⟩
  | some cb =>
      rw [hcb] at hpending
      obtain ⟨timers, herase, -⟩ := h.takeOut (h.armed a ⟨t, ht, by simp [hcb]⟩)
      cases hfind : OrderedSet.find m.before m.timers a with
      | none =>
          rw [hfind] at herase
          cases herase
      | some it =>
          rw [hfind] at herase
          refine ⟨true, _, by simp only [refresh, hcb, hfind, herase, Option.map_some]; rfl,
            hpending.symm, ?_⟩
          intro hfalse
          cases hfalse

/-- Without the shortcut `reset` answers with the truth. -/
theorem reset_truthful (h : m.Ordered) (ht : m.heap a = some t) (now : UInt64)
    (hgo : (ms = t.ms && !fromNow) = false) :
    ∃ ok front m', m.reset a t ms fromNow now = some (ok, front, m') ∧ m.Truthful a ok m' ∧
      (ok = true → m'.ArmedAt a (if fromNow then now else t.next - t.ms) ms) := by
  have hpending := isPending_eq h ht
  have hskip : ¬ (ms = t.ms && !fromNow) = true := by
    rw [hgo]
    exact Bool.false_ne_true
  cases hcb : t.cb with
  | none =>
      rw [hcb] at hpending
      refine ⟨false, false, m, by simp only [reset, if_neg hskip, hcb],
        ⟨hpending.symm, fun _ => rfl⟩, ?_⟩
      intro hfalse
      cases hfalse
  | some cb =>
      rw [hcb] at hpending
      obtain ⟨timers, herase, hsorted, hmem⟩ := h.takeOut (h.armed a ⟨t, ht, by simp [hcb]⟩)
      have hcall : m.reset a t ms fromNow now =
          some (true, (({ m with timers } : TimerManager Cb).store a
            { t with ms, next := (if fromNow then now else t.next - t.ms) + ms }).insertTimer
              a) := by
        unfold reset
        rw [if_neg hskip]
        split
        · next hnone =>
            rw [hcb] at hnone
            cases hnone
        · split
          · next hfind =>
              rw [hfind] at herase
              cases herase
          · rw [herase]
            rfl
      have hin := (sorted_insert (m := { m with timers }) hsorted
        (fun ha => ((hmem a).mp ha).2 rfl)
        { t with ms, next := (if fromNow then now else t.next - t.ms) + ms }).2 a
      have hobject := store_heap_self ({ m with timers } : TimerManager Cb) a
        { t with ms, next := (if fromNow then now else t.next - t.ms) + ms }
      refine ⟨true, _, _, hcall, ⟨hpending.symm, by rintro ⟨⟩⟩, fun _ => ⟨?_, _, hobject, rfl, rfl⟩⟩
      rw [isPending, Bool.and_eq_true, decide_eq_true_eq]
      refine ⟨hin.mpr (.inl rfl), ?_⟩
      rw [callback, show _ = some _ from hobject, Option.bind_some]
      exact Option.isSome_iff_exists.mpr ⟨cb, hcb⟩

/-- The shortcut of `reset`: the answer is `true`, and nothing changes. -/
theorem reset_shortcut (hsame : (ms = t.ms && !fromNow) = true) :
    m.reset a t ms fromNow now = some (true, false, m) :=
  if_pos hsame

theorem reports_iff (h : m.Ordered) {op : Op Cb} (hvalid : m.Valid op) :
    m.ReportsTruth op ↔ m.skipsCheck op = false := by
  cases op with
  | cancel a =>
      obtain ⟨t, ht⟩ := Option.isSome_iff_exists.mp hvalid
      obtain ⟨ok, m', hcall, htruth⟩ := cancel_truthful h ht
      refine ⟨fun _ => rfl, fun _ => ⟨ok, m', ?_, htruth⟩⟩
      simp only [step, ht, hcall, Option.map_some]
  | refresh a now =>
      obtain ⟨t, ht⟩ := Option.isSome_iff_exists.mp hvalid
      obtain ⟨ok, m', hcall, htruth⟩ := refresh_truthful h ht now
      refine ⟨fun _ => rfl, fun _ => ⟨ok, m', ?_, htruth⟩⟩
      simp only [step, ht, hcall, Option.map_some]
  | reset a ms fromNow now =>
      obtain ⟨t, ht⟩ := Option.isSome_iff_exists.mp hvalid
      have hskips : m.skipsCheck (.reset a ms fromNow now) =
          ((ms = t.ms && !fromNow) && !m.isPending a) := by
        simp only [skipsCheck, ht, Option.any_some]
        cases fromNow <;> simp
      rw [hskips]
      cases hsame : (ms = t.ms && !fromNow : Bool) with
      | false =>
          obtain ⟨ok, front, m', hcall, htruth, harmed⟩ := reset_truthful h ht now hsame
          refine ⟨fun _ => rfl, fun _ => ⟨ok, front, m', ?_, htruth, fun hok t' ht' => ?_⟩⟩
          · simp only [step, ht, hcall, Option.map_some]
          · rw [ht] at ht'
            cases ht'
            exact harmed hok
      | true =>
          have hstep : step m (.reset a ms fromNow now) = some (.result true false, m) := by
            simp only [step, ht, reset_shortcut hsame, Option.map_some]
          obtain ⟨hms, hkeep⟩ := Bool.and_eq_true_iff.mp hsame
          have hms := of_decide_eq_true hms
          constructor
          · rintro ⟨ok, front, m', hcall, htruth, -⟩
            rw [hstep] at hcall
            cases hcall
            rw [← htruth.answer]
            rfl
          · intro hnot
            have hpending : m.isPending a = true := by simpa using hnot
            refine ⟨true, false, m, hstep, ⟨hpending.symm, by rintro ⟨⟩⟩, fun _ t' ht' => ?_⟩
            rw [ht] at ht'
            cases ht'
            refine ⟨hpending, t, ht, hms.symm, ?_⟩
            have hkeep' : fromNow = false := by simpa using hkeep
            rw [hkeep', if_neg Bool.false_ne_true, hms, UInt64.sub_add_cancel]
  | addTimer now ms cb recurring a => exact ⟨fun _ => rfl, fun _ => trivial⟩
  | getNextTimer now => exact ⟨fun _ => rfl, fun _ => trivial⟩
  | listExpiredCb now nowTimer => exact ⟨fun _ => rfl, fun _ => trivial⟩
  | release a => exact ⟨fun _ => rfl, fun _ => trivial⟩

/-- **The answers of `cancel`, `refresh` and `reset`.**  In every state that a run reaches a
call says whether the timer was pending, changes nothing when it was not, and a successful
`reset` leaves it pending at its start plus the new period, exactly unless it is a `reset`
with the present period, not from now on, of a timer that is not pending. -/
theorem reportsTruth_iff (start : UInt64) {ops : List (AnyOp Cb)} {outs : List (Out Cb)}
    (hvalid : Machine.Meets stepAny ValidAny (new start) ops)
    (hrun : Machine.run stepAny (new start) ops = some (outs, m)) {op : Op Cb}
    (hop : m.Valid op) : m.ReportsTruth op ↔ m.skipsCheck op = false :=
  reports_iff (run_ordered start hvalid hrun) hop

/-- The period of a pending timer is changed from the time it was added. -/
theorem reportsTruth_iff_pending :
    let ops : List (AnyOp Nat) := [.call (.addTimer 100 50 0 false 8)]
    ∃ outs m, Machine.run stepAny (new 0 : TimerManager Nat) ops = some (outs, m) ∧
      m.ReportsTruth (.reset 8 70 false 120) := by
  intro ops
  have hvalid : Machine.Meets stepAny ValidAny (new 0 : TimerManager Nat) ops := by
    decide
  have hend : (Machine.run stepAny (new 0 : TimerManager Nat) ops).any
      (fun r => decide ((r.2.heap 8).isSome = true ∧
        r.2.skipsCheck (.reset 8 70 false 120) = false)) = true := by
    decide
  obtain ⟨⟨outs, m⟩, hrun, hcond⟩ := (Option.any_eq_true _ _).mp hend
  obtain ⟨hexist, hskips⟩ := of_decide_eq_true hcond
  have hop : m.Valid (.reset 8 70 false 120) := hexist
  exact ⟨outs, m, hrun, (reportsTruth_iff 0 hvalid hrun hop).mpr hskips⟩

/-- A one-shot timer that has fired: `reset` with its period says that it is armed. -/
theorem not_reportsTruth_fired :
    let ops : List (AnyOp Nat) := [.call (.addTimer 100 50 0 false 8),
      .call (.listExpiredCb 150 6)]
    ∃ outs m, Machine.run stepAny (new 0 : TimerManager Nat) ops = some (outs, m) ∧
      m.isPending 8 = false ∧ ¬ m.ReportsTruth (.reset 8 50 false 160) := by
  intro ops
  have hend : (Machine.run stepAny (new 0 : TimerManager Nat) ops).any
      (fun r => decide (r.2.isPending 8 = false) &&
        (step r.2 (.reset 8 50 false 160)).any (fun q => match q.1 with
          | .result ok _ => ok
          | _ => false)) = true := by
    decide
  obtain ⟨⟨outs, m⟩, hrun, hcond⟩ := (Option.any_eq_true _ _).mp hend
  obtain ⟨hpending, hanswer⟩ := Bool.and_eq_true_iff.mp hcond
  have hpending := of_decide_eq_true hpending
  refine ⟨outs, m, hrun, hpending, ?_⟩
  rintro ⟨ok, front, m', hstep, htruth, -⟩
  rw [hstep] at hanswer
  have hok : ok = true := hanswer
  rw [htruth.answer, hpending] at hok
  cases hok

end TimerManager

end Mingo
