import Mingo.Lib.Census
import Mingo.Timer.Idle
import Mingo.Timer.Invariant

/-!
# Wake-ups for timers

`addTimer` calls `onTimerInsertedAtFront` only while `m_tickled` is not set,
and every `getNextTimer` clears that flag.  What makes this enough is an
invariant that links the flag, the counter of idle threads, the pipe and the
deadlines of the workers.

* `Effect` and `step_effect` -- what a timer call can do to the earliest
  `m_next` and to the flag;
* `Watched` -- the invariant, and `step_watched` one step;
* `no_lost_timer` -- in every run a pending timer is waited for.
-/

namespace Mingo

namespace TimerManager

variable {Cb : Type} {m m' : TimerManager Cb} {a : Nat} {t : Timer Cb}

/-- No pending timer is due before `d`. -/
def Cover (m : TimerManager Cb) (d : Nat) : Prop := ∀ a ∈ m.timers, d ≤ (m.next a).toNat

/-- What a timer call can do: no timer becomes due earlier and the flag is not
set, or there is a new timer at the front, the flag is set, and the call goes
on to `tickle` if it was not set before. -/
def Effect (m m' : TimerManager Cb) (front : Bool) : Prop :=
  ((m'.tickled = true → m.tickled = true) ∧ front = false ∧ ∀ d, m.Cover d → m'.Cover d) ∨
    (m'.tickled = true ∧ front = !m.tickled)

/-- Nothing happens. -/
theorem Effect.refl (m : TimerManager Cb) : Effect m m false := .inl ⟨id, rfl, fun _ h => h⟩

/-- The timers that are left are due no earlier. -/
theorem Effect.later (hflag : m'.tickled = m.tickled)
    (h : ∀ b ∈ m'.timers, b ∈ m.timers ∧ m.next b ≤ m'.next b) : Effect m m' false := by
  refine .inl ⟨fun ht => hflag ▸ ht, rfl, fun d hcover b hb => ?_⟩
  obtain ⟨hmem, hle⟩ := h b hb
  exact (hcover b hmem).trans (UInt64.le_iff_toNat_le.mp hle)

/-- A timer was taken out before. -/
theorem Effect.of_takeOut {m₁ : TimerManager Cb} {front : Bool} (h : Effect m₁ m' front)
    (hflag : m₁.tickled = m.tickled) (hcover : ∀ d, m.Cover d → m₁.Cover d) :
    Effect m m' front := by
  unfold Effect at h ⊢
  rw [hflag] at h
  rcases h with ⟨ht, hfront, hlater⟩ | h
  · exact .inl ⟨ht, hfront, fun d hd => hlater d (hcover d hd)⟩
  · exact .inr h

/-- The private `addTimer` of a timer that is not in the set. -/
theorem insertTimer_effect (ha : a ∉ m.timers) :
    Effect m ((m.store a t).insertTimer a).2 ((m.store a t).insertTimer a).1 := by
  by_cases hpos : (OrderedSet.insert (m.store a t).before m.timers a).2 = 0
  · right
    cases hflag : m.tickled with
    | true => simp [insertTimer, hpos, hflag]
    | false => simp [insertTimer, hpos, hflag]
  · left
    refine ⟨by simp [insertTimer, hpos], by simp [insertTimer, hpos], fun d hcover b hb => ?_⟩
    have hkeep : ∀ c ∈ m.timers, (m.store a t).next c = m.next c := by
      intro c hc
      exact next_store_ne fun heq => ha (heq ▸ hc)
    have hnext : ((m.store a t).insertTimer a).2.next b = (m.store a t).next b := rfl
    rw [hnext]
    rcases OrderedSet.mem_of_mem_insert hb with rfl | hmem
    · obtain ⟨c, hc, hlt⟩ := OrderedSet.exists_lt_of_insert_ne_zero hpos
      have hle := (before_iff _ c b).mp hlt
      have hcover' := hcover c hc
      rw [← hkeep c hc] at hcover'
      omega
    · rw [hkeep b hmem]
      exact hcover b hmem

/-- What `cancel` does to the earliest deadline. -/
theorem cancel_effect {ok : Bool} (ht : m.heap a = some t) (h : m.cancel a t = some (ok, m')) :
    Effect m m' false := by
  obtain ⟨-, rfl⟩ | ⟨cb, timers, -, herase, rfl⟩ := cancel_cases h
  · exact Effect.refl _
  · refine Effect.later rfl fun b hb => ?_
    refine ⟨OrderedSet.mem_of_mem_erase herase hb, ?_⟩
    have hnext : (m.store a { t with cb := none }).next b = m.next b := by
      by_cases heq : b = a
      · rw [heq, next_store_self, next_eq ht]
      · exact next_store_ne heq
    exact UInt64.le_of_eq hnext.symm

/-- `refresh` never makes a timer due earlier: it was armed no later than now. -/
theorem refresh_effect {ok : Bool} {now : UInt64} (hcons : m.Consistent [])
    (ht : m.heap a = some t) (hlater : t.cb.isSome → t.next ≤ now + t.ms)
    (h : m.refresh a t now = some (ok, m')) : Effect m m' false := by
  obtain ⟨-, rfl⟩ | ⟨cb, timers, hcb, herase, rfl⟩ := refresh_cases h
  · exact Effect.refl _
  · have ha : a ∈ m.timers := (hcons.mem_iff a (by simp)).mpr ⟨t, ht, by simp [hcb]⟩
    refine Effect.later rfl fun b hb => ?_
    have hnext : ∀ ts, ({ ({ m with timers } : TimerManager Cb).store a
        { t with next := now + t.ms } with timers := ts } : TimerManager Cb).next b =
        (m.store a { t with next := now + t.ms }).next b := fun _ => rfl
    rw [hnext]
    by_cases heq : b = a
    · subst heq
      rw [next_store_self, next_eq ht]
      exact ⟨ha, hlater (by simp [hcb])⟩
    · rw [next_store_ne heq]
      rcases OrderedSet.mem_of_mem_insert hb with hb | hb
      · exact absurd hb heq
      · exact ⟨OrderedSet.mem_of_mem_erase herase hb, UInt64.le_refl _⟩

/-- What `reset` does to the earliest deadline. -/
theorem reset_effect {ok front : Bool} {ms now : UInt64} {fromNow : Bool}
    (hcons : m.Consistent []) (ht : m.heap a = some t)
    (h : m.reset a t ms fromNow now = some (ok, front, m')) : Effect m m' front := by
  obtain ⟨-, rfl, rfl⟩ | ⟨cb, timers, hcb, herase, hinsert⟩ := reset_cases h
  · exact Effect.refl _
  · have ha : a ∈ m.timers := (hcons.mem_iff a (by simp)).mpr ⟨t, ht, by simp [hcb]⟩
    obtain ⟨timers', herase', hout⟩ := hcons.takeOut ha
    obtain rfl := Option.some.inj (herase.symm.trans herase')
    have heffect := insertTimer_effect (m := { m with timers })
      (t := { t with ms, next := (if fromNow then now else t.next - t.ms) + ms })
      (hout.absent a List.mem_cons_self)
    rw [hinsert] at heffect
    refine heffect.of_takeOut rfl fun d hcover b hb => ?_
    exact hcover b (OrderedSet.mem_of_mem_erase herase hb)

/-- The timer was armed at a time that is not later than `clock`. -/
def Based (clock : UInt64) (t : Timer Cb) : Prop :=
  t.ms.toNat ≤ t.next.toNat ∧ t.next.toNat ≤ clock.toNat + t.ms.toNat

/-- A deadline that does not overflow is not before its start. -/
theorem based_of_fits {clock start ms : UInt64} (recurring : Bool) (cb : Option Cb)
    (hstart : start ≤ clock) (hfits : IdleLoops.Fits start ms) :
    Based clock ⟨recurring, ms, start + ms, cb⟩ := by
  have hle := UInt64.le_iff_toNat_le.mp hstart
  have hsum : (start + ms).toNat = start.toNat + ms.toNat := by
    rw [UInt64.toNat_add]
    exact Nat.mod_eq_of_lt hfits
  unfold Based
  simp only [hsum]
  omega

/-- Without its callback a timer has the same deadline. -/
theorem Based.disarm {clock : UInt64} (h : Based clock t) :
    Based clock ({ t with cb := none } : Timer Cb) := h

/-- So `refresh` does not make it due earlier. -/
theorem Based.le_refresh {clock : UInt64} (h : Based clock t)
    (hfits : IdleLoops.Fits clock t.ms) : t.next ≤ clock + t.ms := by
  rw [UInt64.le_iff_toNat_le, UInt64.toNat_add, Nat.mod_eq_of_lt hfits]
  exact h.2

/-- Every timer was armed at a time that is not later than `clock`. -/
def AllBased (m : TimerManager Cb) (clock : UInt64) : Prop :=
  ∀ a t, m.heap a = some t → Based clock t

/-- A store of a timer that is based. -/
theorem AllBased.store {clock : UInt64} (h : m.AllBased clock) (ht : Based clock t) :
    (m.store a t).AllBased clock := by
  intro b t' hb
  by_cases heq : b = a
  · subst heq
    rw [store_heap_self] at hb
    cases hb
    exact ht
  · rw [store_heap_ne m t heq] at hb
    exact h b t' hb

/-- `cancel` keeps the timers based. -/
theorem cancel_based {clock : UInt64} {ok : Bool} (hbased : m.AllBased clock)
    (ht : m.heap a = some t) (h : m.cancel a t = some (ok, m')) : m'.AllBased clock := by
  obtain ⟨-, rfl⟩ | ⟨cb, timers, -, -, rfl⟩ := cancel_cases h
  · exact hbased
  · exact hbased.store (hbased a t ht).disarm

/-- `refresh` keeps the timers based if an armed one does not overflow. -/
theorem refresh_based {clock : UInt64} {ok : Bool} (hbased : m.AllBased clock)
    (hfits : t.cb.isSome → IdleLoops.Fits clock t.ms) (h : m.refresh a t clock = some (ok, m')) :
    m'.AllBased clock := by
  obtain ⟨-, rfl⟩ | ⟨cb, timers, hcb, -, rfl⟩ := refresh_cases h
  · exact hbased
  · exact hbased.store
      (based_of_fits t.recurring t.cb (UInt64.le_refl _) (hfits (by simp [hcb])))

/-- `reset` keeps the timers based if an armed one does not overflow. -/
theorem reset_based {clock ms : UInt64} {ok front fromNow : Bool} (hbased : m.AllBased clock)
    (ht : m.heap a = some t)
    (hfits : t.cb.isSome → IdleLoops.Fits (if fromNow then clock else t.next - t.ms) ms)
    (h : m.reset a t ms fromNow clock = some (ok, front, m')) : m'.AllBased clock := by
  obtain ⟨-, -, rfl⟩ | ⟨cb, timers, hcb, -, hinsert⟩ := reset_cases h
  · exact hbased
  · have hstart : (if fromNow then clock else t.next - t.ms) ≤ clock := by
      split
      · exact UInt64.le_refl _
      · obtain ⟨hms, hnext⟩ := hbased a t ht
        rw [UInt64.le_iff_toNat_le, UInt64.toNat_sub_of_le _ _ (UInt64.le_iff_toNat_le.mpr hms)]
        omega
    have hstore := hbased.store (a := a)
      (based_of_fits t.recurring t.cb hstart (hfits (by simp [hcb])))
    have hheap : m'.heap = _ := congrArg (fun r => r.2.heap) hinsert.symm
    intro b t' hb
    rw [hheap] at hb
    exact hstore b t' hb

/-- A consistent set is ordered. -/
theorem Consistent.ordered (h : m.Consistent []) : m.Ordered where
  sorted := h.sorted
  exist a ha := by
    obtain ⟨t, ht, -⟩ := (h.mem_iff a (by simp)).mp ha
    simp [ht]
  armed a ha := (h.mem_iff a (by simp)).mpr ha

/-- The recurring timers that expire are armed again at the reading of the clock. -/
theorem listExpiredCb_based {clock now : UInt64} {nowTimer : Nat} (hcons : m.Consistent [])
    (hprobe : m.heap nowTimer = none) (hbased : m.AllBased clock) (hnow : now ≤ clock)
    (hfits : ∀ a ∈ m.expiring now, ∀ t ∈ m.heap a, t.recurring = true →
      IdleLoops.Fits now t.ms) :
    (m.listExpiredCb now nowTimer).2.AllBased clock := by
  have hexact := listExpiredCb_exact hcons.ordered hprobe now
  intro a t' ht'
  by_cases hexpires : a ∈ m.expiring now
  · obtain ⟨t, ht⟩ := Option.isSome_iff_exists.mp (hexact.exist a hexpires)
    cases hrec : t.recurring with
    | true =>
        rw [hexact.rearmed a hexpires t ht hrec] at ht'
        cases ht'
        exact based_of_fits t.recurring t.cb hnow (hfits a hexpires t ht hrec)
    | false =>
        rw [hexact.disarmed a hexpires t ht hrec] at ht'
        cases ht'
        exact (hbased a t ht).disarm
  · rw [hexact.unchanged a hexpires] at ht'
    exact hbased a t' ht'

end TimerManager

namespace IdlePhase

/-- Counted in `m_idleThreadCount`. -/
def counted : IdlePhase → Bool
  | .outside => false
  | .finished => false
  | _ => true

/-- The worker does not block before it has called `getNextTimer` again. -/
def fresh : IdlePhase → Bool
  | .armed timeout _ => timeout = 0
  | .blocked _ => false
  | _ => true

/-- The deadline obtained from the last `getNextTimer`. -/
def deadline : IdlePhase → Option Nat
  | .armed _ deadline => some deadline
  | .blocked deadline => some deadline
  | _ => none

end IdlePhase

namespace IdleLoops

variable {Cb : Type} {s t : IdleLoops Cb} {w : Nat}

/-- The pipe is not empty, a `tickle` is under way, or a worker is going to call
`getNextTimer` before it blocks. -/
def Noticed (s : IdleLoops Cb) : Prop :=
  0 < s.pipe ∨ 0 < s.called ∨ 0 < s.writing ∨ ∃ w < s.threads, (s.workers w).fresh = true

/-- Some worker is going to sleep, or sleeps, no longer than to the earliest
`m_next`. -/
def Awaited (s : IdleLoops Cb) : Prop :=
  ∃ w < s.threads, ∃ d ∈ (s.workers w).deadline, s.manager.Cover d

/-- The invariant: the flag is set only while that is known to somebody, and
the timers are waited for unless it is. -/
structure Watched (s : IdleLoops Cb) : Prop where
  threads : 0 < s.threads
  consistent : s.manager.Consistent []
  based : s.manager.AllBased s.clock
  idle : s.idleThreadCount = census s.threads IdlePhase.counted s.workers
  flag : s.manager.tickled = true → s.Noticed
  due : s.manager.timers = [] ∨ s.Noticed ∨ s.Awaited

/-- The invariant holds at the start. -/
theorem Watched.new {n : Nat} (hn : 0 < n) (now : UInt64) : (new n now : IdleLoops Cb).Watched where
  threads := hn
  consistent := TimerManager.new_consistent now
  based := by
    intro a t ha
    cases ha
  idle := (census_eq_zero.mpr fun _ _ => rfl).symm
  flag h := by cases h
  due := .inl rfl

/-- Nobody is counted as idle: every worker is outside. -/
theorem Watched.exists_fresh (h : s.Watched) (hidle : s.idleThreadCount = 0) :
    ∃ w < s.threads, (s.workers w).fresh = true := by
  have hcensus := h.idle
  rw [hidle] at hcensus
  have hout := census_eq_zero.mp hcensus.symm 0 h.threads
  refine ⟨0, h.threads, ?_⟩
  cases hp : s.workers 0 with
  | outside => rfl
  | finished => rfl
  | _ => simp [hp, IdlePhase.counted] at hout

/-- What a step of a worker does to the counter. -/
structure Moves (s t : IdleLoops Cb) (w : Nat) (p : IdlePhase) : Prop where
  threads : t.threads = s.threads
  workers : t.workers = Function.update s.workers w p
  idle : t.idleThreadCount = s.idleThreadCount + p.counted.toNat - (s.workers w).counted.toNat

/-- The phase the worker moves to. -/
theorem Moves.phase {p : IdlePhase} (h : Moves s t w p) : t.workers w = p := by
  rw [h.workers, Function.update_self]

/-- The count of idle threads follows the worker that moves. -/
theorem Watched.census_moves {p : IdlePhase} (h : s.Watched) (hw : w < s.threads)
    (hmoves : Moves s t w p) :
    t.idleThreadCount = census t.threads IdlePhase.counted t.workers := by
  have hcensus := census_update IdlePhase.counted s.workers p hw
  rw [hmoves.idle, hmoves.threads, hmoves.workers, h.idle]
  omega

/-- A worker that is going to call `getNextTimer` before it blocks. -/
theorem Watched.of_fresh {p : IdlePhase} (h : s.Watched) (hw : w < s.threads)
    (hmoves : Moves s t w p) (hfresh : p.fresh = true) (hcons : t.manager.Consistent [])
    (hbased : t.manager.AllBased t.clock) : t.Watched := by
  have hthreads := hmoves.threads
  have hnoticed : t.Noticed := by
    refine .inr (.inr (.inr ⟨w, by omega, ?_⟩))
    rw [hmoves.phase]
    exact hfresh
  have hpos := h.threads
  exact ⟨by omega, hcons, hbased, h.census_moves hw hmoves, fun _ => hnoticed, .inr (.inl hnoticed)⟩

/-- `getNextTimer` clears the flag and nothing else. -/
theorem getNextTimer_manager (m : TimerManager Cb) (now : UInt64) :
    (m.getNextTimer now).2 = { m with tickled := false } := by
  unfold TimerManager.getNextTimer
  cases m.timers with
  | nil => rfl
  | cons a rest => rfl

/-- `getNextTimer` returns the time to the earliest `m_next`. -/
theorem getNextTimer_cover {m : TimerManager Cb} (now : UInt64) (hcons : m.Consistent []) :
    m.timers = [] ∨ (m.getNextTimer now).1 = 0 ∨
      (m.getNextTimer now).2.Cover (now.toNat + (m.getNextTimer now).1.toNat) := by
  cases htimers : m.timers with
  | nil => exact .inl rfl
  | cons a rest =>
      right
      by_cases hdue : now ≥ m.next a
      · left
        simp only [TimerManager.getNextTimer, htimers]
        exact if_pos hdue
      · right
        have hlt : now < m.next a := UInt64.not_le.mp hdue
        have hnat := UInt64.lt_iff_toNat_lt.mp hlt
        have hdelay : (m.getNextTimer now).1 = m.next a - now := by
          simp only [TimerManager.getNextTimer, htimers]
          exact if_neg hdue
        rw [hdelay, getNextTimer_manager, UInt64.toNat_sub_of_le _ _ (UInt64.le_of_lt hlt)]
        intro b hb
        have hb' : b ∈ a :: rest := htimers ▸ hb
        have hsorted := hcons.sorted
        rw [htimers] at hsorted
        have hfirst := (List.pairwise_cons.mp hsorted).1
        show now.toNat + ((m.next a).toNat - now.toNat) ≤ (m.next b).toNat
        rcases List.mem_cons.mp hb' with heq | hrest
        · rw [heq]
          omega
        · have hle := (TimerManager.before_iff m a b).mp (hfirst b hrest)
          omega

/-- A worker that has called `getNextTimer`. -/
theorem Watched.of_getNextTimer (h : s.Watched) (hw : w < s.threads)
    (hp : s.workers w = .entered) :
    ({ s with manager := (s.manager.getNextTimer s.clock).2 }.setPhase w
      (.armed (s.manager.getNextTimer s.clock).1
        (s.clock.toNat + (s.manager.getNextTimer s.clock).1.toNat))).Watched := by
  have hmanager := getNextTimer_manager s.manager s.clock
  have hmoves : Moves s ({ s with manager := (s.manager.getNextTimer s.clock).2 }.setPhase w
      (.armed (s.manager.getNextTimer s.clock).1
        (s.clock.toNat + (s.manager.getNextTimer s.clock).1.toNat))) w
      (.armed (s.manager.getNextTimer s.clock).1
        (s.clock.toNat + (s.manager.getNextTimer s.clock).1.toNat)) :=
    ⟨rfl, rfl, by simp [hp, IdlePhase.counted, setPhase]⟩
  refine ⟨h.threads, ?_, ?_, h.census_moves hw hmoves, ?_, ?_⟩
  · show (s.manager.getNextTimer s.clock).2.Consistent []
    rw [hmanager]
    exact h.consistent.congr rfl rfl
  · show (s.manager.getNextTimer s.clock).2.AllBased s.clock
    rw [hmanager]
    exact h.based
  · intro hflag
    have hfalse : (s.manager.getNextTimer s.clock).2.tickled = false := by rw [hmanager]
    exact absurd (hfalse.symm.trans hflag) Bool.false_ne_true
  · rcases getNextTimer_cover s.clock h.consistent with hnil | hzero | hcover
    · left
      show (s.manager.getNextTimer s.clock).2.timers = []
      rw [hmanager]
      exact hnil
    · refine .inr (.inl (.inr (.inr (.inr ⟨w, hw, ?_⟩))))
      rw [hmoves.phase]
      simp [IdlePhase.fresh, hzero]
    · refine .inr (.inr ⟨w, hw, _, ?_, hcover⟩)
      rw [hmoves.phase]
      rfl

/-- A worker that is going to block, with the deadline it has. -/
theorem Watched.of_blocked {timeout : UInt64} {d : Nat} (h : s.Watched) (hw : w < s.threads)
    (hp : s.workers w = .armed timeout d) (hblocks : epollTimeout timeout ≠ 0) :
    (s.setPhase w (.blocked d)).Watched := by
  have hmoves : Moves s (s.setPhase w (.blocked d)) w (.blocked d) :=
    ⟨rfl, rfl, by simp [hp, IdlePhase.counted, setPhase]⟩
  have hnonzero : timeout ≠ 0 := by
    intro hzero
    apply hblocks
    rw [hzero]
    decide
  have hnoticed : s.Noticed → (s.setPhase w (.blocked d)).Noticed := by
    unfold Noticed
    intro hn
    rcases hn with hpipe | hcalled | hwriting | ⟨v, hv, hfresh⟩
    · exact .inl hpipe
    · exact .inr (.inl hcalled)
    · exact .inr (.inr (.inl hwriting))
    · refine .inr (.inr (.inr ⟨v, hv, ?_⟩))
      have hne : v ≠ w := by
        intro heq
        rw [heq, hp] at hfresh
        simp [IdlePhase.fresh, hnonzero] at hfresh
      rw [hmoves.workers, Function.update_of_ne hne]
      exact hfresh
  refine ⟨h.threads, h.consistent, h.based, h.census_moves hw hmoves,
    fun hflag => hnoticed (h.flag hflag), ?_⟩
  rcases h.due with hnil | hn | ⟨v, hv, e, he, hcover⟩
  · exact .inl hnil
  · exact .inr (.inl (hnoticed hn))
  · refine .inr (.inr ⟨v, hv, e, ?_, hcover⟩)
    by_cases heq : v = w
    · rw [heq, hmoves.phase]
      rw [heq, hp] at he
      exact he
    · rw [hmoves.workers, Function.update_of_ne heq]
      exact he

/-- A step of a worker. -/
theorem act_watched {a : Act} (h : s.Watched) (hw : w < s.threads)
    (hvalid : s.Valid (.worker w a)) (hact : s.act w a (s.workers w) = some t) : t.Watched := by
  generalize hp : s.workers w = p at hact
  revert hact hvalid
  fun_cases act with
  | case1 =>
      intro _ hact
      cases hact
      exact h.of_fresh hw ⟨rfl, rfl, by simp [hp, IdlePhase.counted, setPhase]⟩ rfl
        h.consistent h.based
  | case2 =>
      intro _ hact
      cases hact
      exact h.of_getNextTimer hw hp
  | case3 =>
      intro _ hact
      cases hact
      exact h.of_fresh hw ⟨rfl, rfl, by simp [hp, IdlePhase.counted, setPhase]⟩ rfl
        h.consistent h.based
  | case5 ready timeout d =>
      intro _ hact
      cases hact
      split
      · exact h.of_fresh hw ⟨rfl, rfl, by simp [hp, IdlePhase.counted, setPhase]⟩ rfl
          h.consistent h.based
      · rename_i hblocks
        refine h.of_blocked hw hp ?_
        simp only [Bool.or_eq_true, decide_eq_true_eq, not_or] at hblocks
        exact hblocks.2
  | case6 =>
      intro _ hact
      cases hact
      exact h.of_fresh hw ⟨rfl, rfl, by simp [hp, IdlePhase.counted, setPhase]⟩ rfl
        h.consistent h.based
  | case7 now nowTimer =>
      intro hvalid hact
      cases hact
      exact h.of_fresh hw ⟨rfl, rfl, by simp [hp, IdlePhase.counted, setPhase]⟩ rfl
        (TimerManager.listExpiredCb_consistent h.consistent now nowTimer)
        (TimerManager.listExpiredCb_based h.consistent hvalid.1 h.based hvalid.2.1 hvalid.2.2)
  | case8 =>
      intro _ hact
      cases hact
      exact h.of_fresh hw ⟨rfl, by simp [← hp], by simp [hp, IdlePhase.counted]⟩
        (p := .expired) rfl h.consistent h.based
  | case9 =>
      intro _ hact
      cases hact
      exact h.of_fresh hw ⟨rfl, rfl, by simp [hp, IdlePhase.counted, setPhase]⟩ rfl
        h.consistent h.based
  | case4 => intro _ hact; cases hact
  | case10 => intro _ hact; cases hact

/-- **What the timer calls do**: the set stays consistent, and the earliest
`m_next` moves only as `Effect` says. -/
theorem timer_effect {op : TimerManager.Op Cb} {out : TimerManager.Out Cb} {m : TimerManager Cb}
    (h : s.Watched) (hop : isExpiry op = false) (hvalid : s.Valid (.timer op))
    (hcall : TimerManager.step s.manager op = some (out, m)) :
    s.manager.Effect m (atFront out) ∧ m.Consistent [] ∧ m.AllBased s.clock := by
  cases op with
  | addTimer now ms cb recurring a =>
      obtain ⟨hfree, hnow, hfits⟩ := hvalid
      cases hcall
      have hout : a ∉ s.manager.timers :=
        (h.consistent.fresh hfree).absent a List.mem_cons_self
      refine ⟨TimerManager.insertTimer_effect hout,
        TimerManager.addTimer_consistent h.consistent hfree now ms cb recurring, ?_⟩
      exact h.based.store (TimerManager.based_of_fits recurring (some cb) hnow hfits)
  | cancel a =>
      obtain ⟨t, ok, ht, hcancel, rfl⟩ := TimerManager.step_cancel hcall
      obtain ⟨ok', m', hcancel', hcons⟩ := TimerManager.cancel_consistent h.consistent ht
      rw [hcancel] at hcancel'
      cases hcancel'
      exact ⟨TimerManager.cancel_effect ht hcancel, hcons,
        TimerManager.cancel_based h.based ht hcancel⟩
  | refresh a now =>
      obtain ⟨rfl, hfits⟩ := hvalid
      obtain ⟨t, ok, ht, hrefresh, rfl⟩ := TimerManager.step_refresh hcall
      obtain ⟨ok', m', hrefresh', hcons⟩ :=
        TimerManager.refresh_consistent h.consistent ht s.clock
      rw [hrefresh] at hrefresh'
      cases hrefresh'
      have hlater : t.cb.isSome → t.next ≤ s.clock + t.ms := fun harmed =>
        (h.based a t ht).le_refresh (hfits t ht harmed)
      exact ⟨TimerManager.refresh_effect h.consistent ht hlater hrefresh, hcons,
        TimerManager.refresh_based h.based (hfits t ht) hrefresh⟩
  | reset a ms fromNow now =>
      obtain ⟨rfl, hfits⟩ := hvalid
      obtain ⟨t, ok, front, ht, hreset, rfl⟩ := TimerManager.step_reset hcall
      obtain ⟨ok', front', m', hreset', hcons⟩ :=
        TimerManager.reset_consistent h.consistent ht ms fromNow s.clock
      rw [hreset] at hreset'
      cases hreset'
      exact ⟨TimerManager.reset_effect h.consistent ht hreset, hcons,
        TimerManager.reset_based h.based ht (hfits t ht) hreset⟩
  | getNextTimer now =>
      simp only [TimerManager.step, Option.some.injEq, Prod.mk.injEq] at hcall
      obtain ⟨rfl, rfl⟩ := hcall
      rw [getNextTimer_manager]
      refine ⟨.inl ⟨(fun hflag => by cases hflag), rfl, fun d hcover => hcover⟩,
        h.consistent.congr rfl rfl, h.based⟩
  | listExpiredCb now nowTimer => cases hop
  | release a =>
      cases hcall
      refine ⟨.later rfl fun b hb => ⟨hb, ?_⟩,
        TimerManager.release_consistent h.consistent hvalid.2, fun b t hb => ?_⟩
      · have hne : b ≠ a := fun heq => hvalid.2 (heq ▸ hb)
        refine UInt64.le_of_eq ?_
        simp [TimerManager.next, hne]
      · simp only at hb
        split at hb
        · cases hb
        · exact h.based b t hb

/-- Tickles that are called for leave what was noticed. -/
theorem Noticed.of_called {m : TimerManager Cb} (h : s.Noticed) (n : Nat) :
    ({ s with manager := m, called := s.called + n } : IdleLoops Cb).Noticed := by
  unfold Noticed at h ⊢
  rcases h with hpipe | hcalled | hwriting | hfresh
  · exact .inl hpipe
  · exact .inr (.inl (Nat.add_pos_left hcalled n))
  · exact .inr (.inr (.inl hwriting))
  · exact .inr (.inr (.inr hfresh))

/-- A timer call. -/
theorem timer_watched {m : TimerManager Cb} {front : Bool} (h : s.Watched)
    (heffect : s.manager.Effect m front) (hcons : m.Consistent []) (hbased : m.AllBased s.clock) :
    ({ s with manager := m, called := s.called + front.toNat } : IdleLoops Cb).Watched := by
  rcases heffect with ⟨hflag, rfl, hcover⟩ | ⟨-, rfl⟩
  · refine ⟨h.threads, hcons, hbased, h.idle, fun ht => (h.flag (hflag ht)).of_called 0, ?_⟩
    rcases h.due with hnil | hnoticed | ⟨w, hw, d, hd, hdue⟩
    · left
      have hempty := hcover (2 ^ 64) (by simp [TimerManager.Cover, hnil])
      rw [List.eq_nil_iff_forall_not_mem]
      intro a ha
      have hle := hempty a ha
      have hlt := (m.next a).toNat_lt
      omega
    · exact .inr (.inl (hnoticed.of_called 0))
    · exact .inr (.inr ⟨w, hw, d, hd, hcover d hdue⟩)
  · have hnoticed : ({ s with manager := m, called := s.called + (!s.manager.tickled).toNat } :
        IdleLoops Cb).Noticed := by
      cases hflag : s.manager.tickled with
      | true => exact (h.flag hflag).of_called _
      | false => exact .inr (.inl (Nat.succ_pos _))
    exact ⟨h.threads, hcons, hbased, h.idle, fun _ => hnoticed, .inr (.inl hnoticed)⟩

/-- The number of threads stays. -/
theorem step_threads {op : Op Cb} {o : Unit} (hstep : step s op = some (o, t)) :
    t.threads = s.threads := by
  cases op with
  | timer op =>
      simp only [step] at hstep
      split at hstep
      · cases hstep
      · cases hcall : TimerManager.step s.manager op with
        | none => simp [hcall] at hstep
        | some r =>
            simp only [hcall] at hstep
            cases hstep
            rfl
  | notify =>
      cases hstep
      rfl
  | worker w a =>
      obtain ⟨-, hact⟩ := Option.ite_none_right_eq_some.mp hstep
      obtain ⟨t', hact, heq⟩ := Option.map_eq_some_iff.mp hact
      cases heq
      generalize s.workers w = p at hact
      revert hact
      fun_cases act with
      | case4 => intro hact; cases hact
      | case10 => intro hact; cases hact
      | _ =>
          intro hact
          cases hact
          rfl
  | _ =>
      obtain ⟨-, heq⟩ := Option.ite_none_right_eq_some.mp hstep
      cases heq
      rfl

/-- **Step lemma.** -/
theorem step_watched (s : IdleLoops Cb) (op : Op Cb) (o : Unit) (t : IdleLoops Cb) (h : s.Watched)
    (hvalid : s.Valid op) (hstep : step s op = some (o, t)) : t.Watched := by
  cases op with
  | tick now =>
      obtain ⟨hle, heq⟩ := Option.ite_none_right_eq_some.mp hstep
      cases heq
      refine ⟨h.threads, h.consistent, fun a t ha => ?_, h.idle, h.flag, h.due⟩
      have hbased := h.based a t ha
      have hclock := UInt64.le_iff_toNat_le.mp hle
      exact ⟨hbased.1, hbased.2.trans (Nat.add_le_add_right hclock _)⟩
  | timer op =>
      simp only [step] at hstep
      split at hstep
      · cases hstep
      · rename_i hop
        cases hcall : TimerManager.step s.manager op with
        | none => simp [hcall] at hstep
        | some r =>
            obtain ⟨out, m⟩ := r
            simp only [hcall] at hstep
            cases hstep
            obtain ⟨heffect, hcons, hbased⟩ :=
              timer_effect h (Bool.not_eq_true _ ▸ hop) hvalid hcall
            exact timer_watched h heffect hcons hbased
  | tickle =>
      obtain ⟨hcalled, heq⟩ := Option.ite_none_right_eq_some.mp hstep
      cases heq
      have hnoticed : ({ s with
          called := s.called - 1
          writing := s.writing + (decide (0 < s.idleThreadCount)).toNat } :
            IdleLoops Cb).Noticed := by
        by_cases hidle : s.idleThreadCount = 0
        · exact .inr (.inr (.inr (h.exists_fresh hidle)))
        · refine .inr (.inr (.inl ?_))
          simp [Nat.pos_of_ne_zero hidle]
      exact ⟨h.threads, h.consistent, h.based, h.idle, fun _ => hnoticed, .inr (.inl hnoticed)⟩
  | write =>
      obtain ⟨-, heq⟩ := Option.ite_none_right_eq_some.mp hstep
      cases heq
      have hpipe : 0 < s.pipe + 1 := Nat.succ_pos _
      exact ⟨h.threads, h.consistent, h.based, h.idle, fun _ => .inl hpipe,
        .inr (.inl (.inl hpipe))⟩
  | notify =>
      cases hstep
      have hpipe : 0 < s.pipe + 1 := Nat.succ_pos _
      exact ⟨h.threads, h.consistent, h.based, h.idle, fun _ => .inl hpipe,
        .inr (.inl (.inl hpipe))⟩
  | worker w a =>
      obtain ⟨hw, hact⟩ := Option.ite_none_right_eq_some.mp hstep
      obtain ⟨t', hact, heq⟩ := Option.map_eq_some_iff.mp hact
      cases heq
      exact act_watched h hw hvalid hact

/-- **No lost timer wake-up.**  In every run of any number of workers with the
timer calls of any threads, at a clock that does not go back and without
overflow of `m_next`: while a timer is pending, some worker is not blocked in
`epoll_wait`, or the pipe is not empty, or a thread that has found its timer at
the front has released the lock and not yet executed its `tickle`, or the
deadline of some blocked worker is no later than the `m_next` of any pending
timer. -/
theorem no_lost_timer (n : Nat) (hn : 0 < n) (now : UInt64) (ops : List (Op Cb)) (os : List Unit)
    (s : IdleLoops Cb) (hvalid : Machine.Meets step Valid (new n now) ops)
    (hrun : Machine.run step (new n now) ops = some (os, s)) (hpending : s.manager.timers ≠ []) :
    (∃ w < n, ∀ d, s.workers w ≠ .blocked d) ∨ 0 < s.pipe ∨ 0 < s.called + s.writing ∨
      ∃ w < n, ∃ d, s.workers w = .blocked d ∧
        ∀ a ∈ s.manager.timers, d ≤ (s.manager.next a).toNat := by
  have hstep : ∀ (s : IdleLoops Cb) op o t, s.Watched ∧ s.threads = n → Valid s op →
      step s op = some (o, t) → (t.Watched ∧ t.threads = n) ∧ True := by
    intro s op o t h hv hstep
    exact ⟨⟨step_watched s op o t h.1 hv hstep, (step_threads hstep).trans h.2⟩, trivial⟩
  obtain ⟨⟨hwatched, hthreads⟩, -⟩ :=
    Machine.run_invariant_of_meets hstep ⟨Watched.new hn now, rfl⟩ hvalid hrun
  rw [← hthreads]
  rcases hwatched.due with hnil | hnoticed | ⟨w, hw, d, hd, hcover⟩
  · exact absurd hnil hpending
  · rcases hnoticed with hpipe | hcalled | hwriting | ⟨w, hw, hfresh⟩
    · exact .inr (.inl hpipe)
    · exact .inr (.inr (.inl (Nat.add_pos_left hcalled _)))
    · exact .inr (.inr (.inl (Nat.add_pos_right _ hwriting)))
    · refine .inl ⟨w, hw, fun d hp => ?_⟩
      rw [hp] at hfresh
      cases hfresh
  · by_cases hblocked : s.workers w = .blocked d
    · exact .inr (.inr (.inr ⟨w, hw, d, hblocked, hcover⟩))
    · refine .inl ⟨w, hw, fun d' hp => ?_⟩
      rw [hp] at hd
      cases hd
      exact hblocked hp

/-- A worker blocks without a timer; one is added and wakes it up; it blocks
again until that timer is due. -/
def addedWhileBlocked : List (Op Nat) :=
  [.worker 0 .enterIdle, .worker 0 .getNextTimer, .worker 0 (.epollWait false),
    .timer (.addTimer 100 50 0 false 8), .tickle, .write, .worker 0 .wake,
    .worker 0 (.listExpiredCb 100 6), .worker 0 .drain, .worker 0 .leaveIdle,
    .worker 0 .enterIdle, .worker 0 .getNextTimer, .worker 0 (.epollWait false)]

/-- A timer that is added while the worker sleeps. -/
theorem no_lost_timer_addedWhileBlocked :
    ∃ os s, Machine.run step (new 1 100) addedWhileBlocked = some (os, s) ∧
      s.workers 0 = .blocked 150 ∧ s.manager.timers = [8] ∧
      ((∃ w < 1, ∀ d, s.workers w ≠ .blocked d) ∨ 0 < s.pipe ∨ 0 < s.called + s.writing ∨
        ∃ w < 1, ∃ d, s.workers w = .blocked d ∧
          ∀ a ∈ s.manager.timers, d ≤ (s.manager.next a).toNat) := by
  have hvalid : Machine.Meets step Valid (new 1 100) addedWhileBlocked := by decide
  have hrun : (Machine.run step (new 1 100) addedWhileBlocked).any (fun r =>
      decide (r.2.workers 0 = .blocked 150) && decide (r.2.manager.timers = [8])) = true := by
    decide
  obtain ⟨⟨os, s⟩, hs, hfacts⟩ := Option.any_eq_true _ _ |>.mp hrun
  simp only [Bool.and_eq_true, decide_eq_true_eq] at hfacts
  exact ⟨os, s, hs, hfacts.1, hfacts.2,
    no_lost_timer 1 (by decide) 100 addedWhileBlocked os s hvalid hs (by simp [hfacts.2])⟩

end IdleLoops

end Mingo
