import Mathlib.Algebra.Group.Int.Defs
import Mingo.Timer.Expiry
import Mingo.Timer.Idle

/-!
# How long the idle loop waits

`getNextTimer` hands out an unsigned delay of 64 bits.  `idle` casts it to
`int`, clamps it at three seconds and casts the result to `int` again, so of a
far deadline only the low 32 bits count.  When a signal interrupts
`epoll_wait`, `idle` waits once more with the value it has, and does not ask
for the next timer again.

* `epollWaits_eq` -- the clamp changes nothing the second time;
* `waitsBounded_iff` -- when every wait is bounded by the earliest timer.
-/

namespace Mingo

namespace IdleLoops

variable {Cb : Type} {m : TimerManager Cb} {next now r : UInt64}

/-! ### The loop around `epoll_wait` -/

/-- `next_timeout` after it is clamped. -/
def clampTimeout (next : UInt64) : UInt64 :=
  if next ≠ -1 then (if toInt next > 3000 then 3000 else next) else 3000

/-- The calls of `epoll_wait` at these clock readings, all but the last one interrupted:
each with its time-out. -/
def epollWaits (next : UInt64) : List UInt64 → List (UInt64 × Int)
  | [] => []
  | now :: later => (now, toInt (clampTimeout next)) :: epollWaits (clampTimeout next) later

/-- The calls of `epoll_wait` in one turn of `idle`, which asks for the next timer at the
reading `now` and is interrupted until the readings `again`; `quiet` is what `stopping`
finds besides the timers. -/
def idleWaits (m : TimerManager Cb) (quiet : Bool) (now : UInt64) (again : List UInt64) :
    List (UInt64 × Int) :=
  let next := (m.getNextTimer now).1
  if next = -1 ∧ quiet = true then [] else epollWaits next (now :: again)

/-- A wait that starts at the reading `r` takes up to three seconds, ends when the
earliest timer is due, and is no wait at all only when one is due. -/
structure BoundedWait (m : TimerManager Cb) (r : UInt64) (timeout : Int) : Prop where
  nonneg : 0 ≤ timeout
  le_max : timeout ≤ 3000
  le_remaining : ∀ a ∈ m.timers, timeout ≤ ((m.next a).toNat - r.toNat : Nat)
  due : timeout = 0 → ∃ a ∈ m.timers, m.next a ≤ r

/-- All waits of a turn are bounded. -/
def WaitsBounded (m : TimerManager Cb) (quiet : Bool) (now : UInt64) (again : List UInt64) :
    Prop :=
  ∀ w ∈ idleWaits m quiet now again, BoundedWait m w.1 w.2

/-- The delay to the earliest timer survives the casts, and no wait is repeated so late
that it would miss this timer. -/
def KeepsDelay (quiet : Bool) (now first : UInt64) (again : List UInt64) : Prop :=
  if first ≤ now then ∀ r ∈ again, first ≤ r
  else if first - now = -1 then
    quiet = true ∨ ∀ r ∈ again, r.toNat + 3000 ≤ first.toNat
  else
    0 < (first - now).toNat % 2 ^ 32 ∧ (first - now).toNat % 2 ^ 32 < 2 ^ 31 ∧
      ∀ r ∈ again, r.toNat + min ((first - now).toNat % 2 ^ 32) 3000 ≤ first.toNat

/-- It is decided over the readings of the list, not over all numbers of 64 bits. -/
instance decidableReadings {p : UInt64 → Prop} [DecidablePred p] (again : List UInt64) :
    Decidable (∀ r ∈ again, p r) :=
  List.decidableBAll p again

instance (quiet : Bool) (now first : UInt64) (again : List UInt64) :
    Decidable (KeepsDelay quiet now first again) :=
  inferInstanceAs (Decidable (ite _ _ (ite _ _ _)))

/-! ### The casts -/

/-- `(int)` keeps the low 32 bits and takes the highest of them as the sign. -/
theorem toInt_eq (x : UInt64) : toInt x = if x.toNat % 2 ^ 32 < 2 ^ 31
    then ((x.toNat % 2 ^ 32 : Nat) : Int) else ((x.toNat % 2 ^ 32 : Nat) : Int) - 2 ^ 32 := by
  rw [toInt, BitVec.toInt_eq_toNat_cond, BitVec.toNat_ofNat]
  by_cases hlow : x.toNat % 2 ^ 32 < 2 ^ 31
  · rw [if_pos hlow, if_pos (by omega)]
  · rw [if_neg hlow, if_neg (by omega)]
    rfl

theorem toInt_clampTimeout (next : UInt64) : toInt (clampTimeout next) = epollTimeout next := by
  unfold clampTimeout epollTimeout
  split
  · rfl
  · decide

theorem clampTimeout_clampTimeout (next : UInt64) :
    clampTimeout (clampTimeout next) = clampTimeout next := by
  have h3000 : clampTimeout 3000 = 3000 := by decide
  by_cases hne : next ≠ -1
  · by_cases hgt : toInt next > 3000
    · have hclamp : clampTimeout next = 3000 := by rw [clampTimeout, if_pos hne, if_pos hgt]
      rw [hclamp, h3000]
    · have hclamp : clampTimeout next = next := by rw [clampTimeout, if_pos hne, if_neg hgt]
      rw [hclamp, hclamp]
  · have hclamp : clampTimeout next = 3000 := if_neg hne
    rw [hclamp, h3000]

/-- **The value is the same each time.** -/
theorem epollWaits_eq (next : UInt64) (rs : List UInt64) :
    epollWaits next rs = rs.map fun r => (r, epollTimeout next) := by
  induction rs generalizing next with
  | nil => rfl
  | cons r rs ih =>
      have hnext : epollTimeout (clampTimeout next) = epollTimeout next := by
        rw [← toInt_clampTimeout, clampTimeout_clampTimeout, toInt_clampTimeout]
      rw [epollWaits, ih, hnext, toInt_clampTimeout]
      rfl

/-- The time-out for a delay: negative if bit 31 is set, and else the low 32 bits up to
three seconds. -/
theorem epollTimeout_of_ge (hne : next ≠ -1) (hbig : 2 ^ 31 ≤ next.toNat % 2 ^ 32) :
    epollTimeout next < 0 := by
  have hlt := Nat.mod_lt next.toNat (Nat.two_pow_pos 32)
  have hcast : toInt next = ((next.toNat % 2 ^ 32 : Nat) : Int) - 2 ^ 32 := by
    rw [toInt_eq, if_neg (Nat.not_lt.mpr hbig)]
  rw [epollTimeout, if_pos hne, if_neg (by omega), hcast]
  omega

theorem epollTimeout_of_lt (hne : next ≠ -1) (hlow : next.toNat % 2 ^ 32 < 2 ^ 31) :
    epollTimeout next = (min (next.toNat % 2 ^ 32) 3000 : Nat) := by
  have hcast : toInt next = ((next.toNat % 2 ^ 32 : Nat) : Int) := by
    rw [toInt_eq, if_pos hlow]
  rw [epollTimeout, if_pos hne]
  split
  · next hgt =>
      rw [Nat.min_eq_right (by omega)]
      decide
  · next hle => rw [hcast, Nat.min_eq_left (by omega)]

/-! ### The bounds -/

theorem waitsBounded_of_quiet {quiet : Bool} {again : List UInt64}
    (h : (m.getNextTimer now).1 = -1 ∧ quiet = true) : WaitsBounded m quiet now again := by
  intro w hw
  rw [idleWaits, if_pos h] at hw
  cases hw

theorem waitsBounded_of_wait {quiet : Bool} {again : List UInt64}
    (h : ¬ ((m.getNextTimer now).1 = -1 ∧ quiet = true)) :
    WaitsBounded m quiet now again ↔ ∀ r ∈ now :: again,
      BoundedWait m r (epollTimeout (m.getNextTimer now).1) := by
  rw [WaitsBounded, idleWaits, if_neg h, epollWaits_eq]
  constructor
  · intro hall r hr
    exact hall _ (List.mem_map.mpr ⟨r, hr, rfl⟩)
  · intro hall w hw
    obtain ⟨r, hr, rfl⟩ := List.mem_map.mp hw
    exact hall r hr

/-- Without a timer the wait is three seconds. -/
theorem getNextTimer_nil (now : UInt64) (hnil : m.timers = []) : (m.getNextTimer now).1 = -1 := by
  simp [TimerManager.getNextTimer, hnil]

theorem getNextTimer_cons (now : UInt64) {a : Nat} {rest : List Nat}
    (hcons : m.timers = a :: rest) :
    (m.getNextTimer now).1 = if now ≥ m.next a then 0 else m.next a - now := by
  simp only [TimerManager.getNextTimer, hcons]
  rfl

/-- The first timer of the set is the earliest one. -/
theorem next_le_of_mem (h : m.Ordered) {a b : Nat} {rest : List Nat}
    (hcons : m.timers = a :: rest) (hb : b ∈ m.timers) : (m.next a).toNat ≤ (m.next b).toNat := by
  have hsorted := h.sorted
  rw [hcons] at hsorted hb
  rcases List.mem_cons.mp hb with rfl | hb
  · exact Nat.le_refl _
  · have hlt := (TimerManager.before_iff m a b).mp ((List.pairwise_cons.mp hsorted).1 b hb)
    omega

/-- The bounds are those of the first timer. -/
theorem boundedWait_iff (h : m.Ordered) {a : Nat} {rest : List Nat} (hcons : m.timers = a :: rest)
    (timeout : Int) :
    BoundedWait m r timeout ↔ 0 ≤ timeout ∧ timeout ≤ 3000 ∧
      timeout ≤ ((m.next a).toNat - r.toNat : Nat) ∧ (timeout = 0 → m.next a ≤ r) := by
  have ha : a ∈ m.timers := by
    rw [hcons]
    exact List.mem_cons_self
  constructor
  · rintro ⟨hnonneg, hmax, hremaining, hdue⟩
    refine ⟨hnonneg, hmax, hremaining a ha, fun hzero => ?_⟩
    obtain ⟨b, hb, hle⟩ := hdue hzero
    rw [UInt64.le_iff_toNat_le] at hle ⊢
    exact Nat.le_trans (next_le_of_mem h hcons hb) hle
  · rintro ⟨hnonneg, hmax, hremaining, hdue⟩
    refine ⟨hnonneg, hmax, fun b hb => ?_, fun hzero => ⟨a, ha, hdue hzero⟩⟩
    have hfirst := next_le_of_mem h hcons hb
    omega

/-- A timer is due: `idle` does not wait, and a timer must be due at each reading. -/
theorem bounded_of_due (h : m.Ordered) {a : Nat} {rest : List Nat} (hcons : m.timers = a :: rest)
    {again : List UInt64} (hdue : m.next a ≤ now) :
    (∀ r ∈ now :: again, BoundedWait m r 0) ↔ ∀ r ∈ again, m.next a ≤ r := by
  constructor
  · intro hall r hr
    exact ((boundedWait_iff h hcons 0).mp (hall r (List.mem_cons_of_mem _ hr))).2.2.2 rfl
  · intro hall r hr
    refine (boundedWait_iff h hcons 0).mpr ⟨by decide, by decide, by omega, fun _ => ?_⟩
    rcases List.mem_cons.mp hr with rfl | hr
    · exact hdue
    · exact hall r hr

/-- A positive time-out that keeps the first bounds: it must not be used too late. -/
theorem bounded_of_pos (h : m.Ordered) {a : Nat} {rest : List Nat} (hcons : m.timers = a :: rest)
    {again : List UInt64} {wait : Nat} (hpos : 0 < wait) (hmax : wait ≤ 3000)
    (hfirst : now.toNat + wait ≤ (m.next a).toNat) :
    (∀ r ∈ now :: again, BoundedWait m r (wait : Int)) ↔
      ∀ r ∈ again, r.toNat + wait ≤ (m.next a).toNat := by
  have hiff : ∀ r : UInt64, BoundedWait m r (wait : Int) ↔ r.toNat + wait ≤ (m.next a).toNat := by
    intro r
    rw [boundedWait_iff h hcons]
    omega
  simp only [List.mem_cons, forall_eq_or_imp, hiff]
  exact ⟨And.right, fun hall => ⟨hfirst, hall⟩⟩

/-- A delay to a timer that is not due. -/
theorem bounded_of_delay (h : m.Ordered) {a : Nat} {rest : List Nat}
    (hcons : m.timers = a :: rest) (hlate : ¬ (m.next a).toNat ≤ now.toNat)
    (hdelay : (m.next a - now).toNat = (m.next a).toNat - now.toNat) (again : List UInt64) :
    (∀ r ∈ now :: again, BoundedWait m r (epollTimeout (m.next a - now))) ↔
      if m.next a - now = -1 then ∀ r ∈ again, r.toNat + 3000 ≤ (m.next a).toNat
      else 0 < (m.next a - now).toNat % 2 ^ 32 ∧ (m.next a - now).toNat % 2 ^ 32 < 2 ^ 31 ∧
        ∀ r ∈ again,
          r.toNat + min ((m.next a - now).toNat % 2 ^ 32) 3000 ≤ (m.next a).toNat := by
  by_cases hlast : m.next a - now = -1
  · have htimeout : epollTimeout (m.next a - now) = (3000 : Nat) := by
      rw [hlast]
      decide
    have hfar : (m.next a - now).toNat = 2 ^ 64 - 1 := by
      rw [hlast]
      decide
    rw [if_pos hlast, htimeout]
    exact bounded_of_pos h hcons (by decide) (Nat.le_refl _) (by omega)
  · rw [if_neg hlast]
    rcases Nat.lt_or_ge ((m.next a - now).toNat % 2 ^ 32) (2 ^ 31) with hlow | hbig
    · rw [epollTimeout_of_lt hlast hlow]
      rcases Nat.eq_zero_or_pos ((m.next a - now).toNat % 2 ^ 32) with hzero | hpos
      · rw [hzero, Nat.zero_min]
        constructor
        · intro hall
          -- no timer is due at the first reading
          have hdue := ((boundedWait_iff h hcons _).mp (hall now List.mem_cons_self)).2.2.2 rfl
          exact absurd (UInt64.le_iff_toNat_le.mp hdue) hlate
        · rintro ⟨hpos, -⟩
          exact absurd hpos (Nat.lt_irrefl 0)
      · have hshort := Nat.mod_le (m.next a - now).toNat (2 ^ 32)
        have hwait : 0 < min ((m.next a - now).toNat % 2 ^ 32) 3000 :=
          Nat.lt_min.mpr ⟨hpos, by decide⟩
        rw [bounded_of_pos h hcons hwait (Nat.min_le_right _ _) (by omega)]
        exact ⟨fun hall => ⟨hpos, hlow, hall⟩, fun hall => hall.2.2⟩
    · constructor
      · intro hall
        have hneg := epollTimeout_of_ge hlast hbig
        have hnonneg := (hall now List.mem_cons_self).nonneg
        omega
      · rintro ⟨-, hlow, -⟩
        exact absurd hlow (Nat.not_lt.mpr hbig)

theorem waits_bounded_iff (h : m.Ordered) (quiet : Bool) (now : UInt64) (again : List UInt64) :
    WaitsBounded m quiet now again ↔
      ∀ a ∈ m.timers.head?, KeepsDelay quiet now (m.next a) again := by
  cases hcons : m.timers with
  | nil =>
      have hnext := getNextTimer_nil now hcons
      simp only [List.head?_nil, Option.not_mem_none, false_implies, implies_true, iff_true]
      by_cases hquiet : quiet = true
      · exact waitsBounded_of_quiet ⟨hnext, hquiet⟩
      · rw [waitsBounded_of_wait (fun hc => hquiet hc.2), hnext]
        intro r _
        refine ⟨by decide, by decide, ?_, fun hzero => absurd hzero (by decide)⟩
        rw [hcons]
        intro a ha
        cases ha
  | cons a rest =>
      have hnext := getNextTimer_cons now hcons
      simp only [List.head?_cons, Option.mem_some_iff, forall_eq']
      unfold KeepsDelay
      by_cases hdue : m.next a ≤ now
      · rw [if_pos hdue] at hnext ⊢
        rw [waitsBounded_of_wait (by rw [hnext]; rintro ⟨hc, -⟩; cases hc), hnext]
        exact bounded_of_due h hcons hdue
      · rw [if_neg hdue] at hnext ⊢
        have hdelay : (m.next a - now).toNat = (m.next a).toNat - now.toNat := by
          apply UInt64.toNat_sub_of_le
          rw [UInt64.le_iff_toNat_le] at hdue ⊢
          omega
        rw [UInt64.le_iff_toNat_le] at hdue
        have hlate := bounded_of_delay h hcons hdue hdelay again
        by_cases hquiet : m.next a - now = -1 ∧ quiet = true
        · rw [if_pos hquiet.1]
          exact ⟨fun _ => .inl hquiet.2, fun _ => waitsBounded_of_quiet (hnext ▸ hquiet)⟩
        · rw [waitsBounded_of_wait (hnext.symm ▸ hquiet), hnext, hlate]
          by_cases hlast : m.next a - now = -1
          · have hloud : ¬ quiet = true := fun hq => hquiet ⟨hlast, hq⟩
            rw [if_pos hlast, if_pos hlast, or_iff_right hloud]
          · rw [if_neg hlast, if_neg hlast]

/-- **The idle wait.**  In every state of the timers that a run reaches, at every clock
reading, and at every repetition after an interruption, the time-out passed to `epoll_wait`
is bounded exactly if no timer is pending or the delay to the earliest one survives the
casts, and no wait is repeated too late for it. -/
theorem waitsBounded_iff (start : UInt64) {ops : List (TimerManager.AnyOp Cb)}
    {outs : List (TimerManager.Out Cb)}
    (hvalid : Machine.Meets TimerManager.stepAny TimerManager.ValidAny (TimerManager.new start) ops)
    (hrun : Machine.run TimerManager.stepAny (TimerManager.new start) ops = some (outs, m))
    (quiet : Bool) (now : UInt64) (again : List UInt64) :
    WaitsBounded m quiet now again ↔
      ∀ a ∈ m.timers.head?, KeepsDelay quiet now (m.next a) again :=
  waits_bounded_iff (TimerManager.run_ordered start hvalid hrun) quiet now again

/-- A timer in four seconds, and an interruption after one of them. -/
theorem waitsBounded_iff_interrupted :
    let ops : List (TimerManager.AnyOp Nat) := [.call (.addTimer 100 4000 0 false 8)]
    ∃ outs m, Machine.run TimerManager.stepAny (TimerManager.new 0 : TimerManager Nat) ops =
        some (outs, m) ∧ idleWaits m false 100 [1100] = [(100, 3000), (1100, 3000)] ∧
      WaitsBounded m false 100 [1100] := by
  intro ops
  have hvalid : Machine.Meets TimerManager.stepAny TimerManager.ValidAny
      (TimerManager.new 0 : TimerManager Nat) ops := by
    decide
  have hend : (Machine.run TimerManager.stepAny (TimerManager.new 0 : TimerManager Nat) ops).any
      (fun r => decide (idleWaits r.2 false 100 [1100] = [(100, 3000), (1100, 3000)] ∧
        ∀ a ∈ r.2.timers.head?, KeepsDelay false 100 (r.2.next a) [1100])) = true := by
    decide
  obtain ⟨⟨outs, m⟩, hrun, hcond⟩ := (Option.any_eq_true _ _).mp hend
  obtain ⟨hwaits, hdelay⟩ := of_decide_eq_true hcond
  exact ⟨outs, m, hrun, hwaits, (waitsBounded_iff 0 hvalid hrun false 100 [1100]).mpr hdelay⟩

/-- Delays of `2 ^ 31` and `2 ^ 32` milliseconds: a negative time-out, which waits without
end, and a time-out of zero with no timer due.  And a delay of one second, interrupted
after half of it. -/
theorem not_waitsBounded :
    (∃ m : TimerManager Nat, (∃ outs, Machine.run TimerManager.stepAny (TimerManager.new 0)
        [.call (.addTimer 0 0x80000000 0 false 8)] = some (outs, m)) ∧
      idleWaits m false 0 [] = [(0, -0x80000000)] ∧ ¬ WaitsBounded m false 0 []) ∧
    (∃ m : TimerManager Nat, (∃ outs, Machine.run TimerManager.stepAny (TimerManager.new 0)
        [.call (.addTimer 0 0x100000000 0 false 8)] = some (outs, m)) ∧
      idleWaits m false 0 [] = [(0, 0)] ∧ ¬ WaitsBounded m false 0 []) ∧
    ∃ m : TimerManager Nat, (∃ outs, Machine.run TimerManager.stepAny (TimerManager.new 0)
        [.call (.addTimer 0 1000 0 false 8)] = some (outs, m)) ∧
      idleWaits m false 0 [500] = [(0, 1000), (500, 1000)] ∧ ¬ WaitsBounded m false 0 [500] := by
  have hadd : ∀ ms, Machine.run TimerManager.stepAny (TimerManager.new 0 : TimerManager Nat)
      [.call (.addTimer 0 ms 0 false 8)] = some ([.timer 8 true],
        (TimerManager.addTimer (TimerManager.new 0) 0 ms 0 false 8).2) := fun _ => rfl
  refine ⟨⟨_, ⟨_, hadd _⟩, by decide, fun hbounded => ?_⟩,
    ⟨_, ⟨_, hadd _⟩, by decide, fun hbounded => ?_⟩,
    ⟨_, ⟨_, hadd _⟩, by decide, fun hbounded => ?_⟩⟩
  · exact absurd (hbounded (0, -0x80000000) (by decide)).nonneg (by decide)
  · obtain ⟨a, ha, hdue⟩ := (hbounded (0, 0) (by decide)).due rfl
    revert a
    decide
  · have hremaining := (hbounded (500, 1000) (by decide)).le_remaining 8 (by decide)
    revert hremaining
    decide

end IdleLoops

end Mingo
