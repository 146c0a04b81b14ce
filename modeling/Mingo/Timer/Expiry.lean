import Mingo.Timer.Invariant

/-!
# What expires

`listExpiredCb` cuts the set at the lower bound of a probe that carries the
clock reading, wherever the probe lies in memory, and walks on over the timers
with this very `m_next`.  So the front it takes out is the set of the timers
that are due.  The recurring ones are put back while the loop goes over them.

The calls are those of `step`, and `addTimer` with an empty callback.  Such a
timer stays in the set until it expires, as the three member functions look at
the callback first; `Ordered` is what remains of the invariant.

* `take_expiredCount` -- the cut;
* `fire_spec` -- the loop;
* `listExpiredCb_exact`, `expires_exactly` -- one call, in any state that a run
  reaches.
-/

namespace Mingo

namespace TimerManager

variable {Cb : Type} {m m' : TimerManager Cb} {a : Nat} {t : Timer Cb} {now : UInt64}

/-! ### The calls -/

/-- A call of `step`, or `addTimer` with an empty callback. -/
inductive AnyOp (Cb : Type)
  | call (op : Op Cb)
  | addEmpty (now ms : UInt64) (recurring : Bool) (a : Nat)

/-- A call is valid; a timer without a callback needs a free address. -/
def ValidAny (m : TimerManager Cb) : AnyOp Cb → Prop
  | .call op => m.Valid op
  | .addEmpty _ _ _ a => m.heap a = none

instance (m : TimerManager Cb) : (op : AnyOp Cb) → Decidable (m.ValidAny op)
  | .call op => inferInstanceAs (Decidable (m.Valid op))
  | .addEmpty _ _ _ a => inferInstanceAs (Decidable (m.heap a = none))

/-- A call, or `addTimer` with an empty callback. -/
def stepAny : Machine.Step (TimerManager Cb) (AnyOp Cb) (Out Cb)
  | m, .call op => step m op
  | m, .addEmpty now ms recurring a =>
      let (atFront, m) :=
        (m.store a { recurring, ms, next := now + ms, cb := none }).insertTimer a
      some (.timer a atFront, m)

/-! ### The timers that are due -/

/-- The callback of the timer at an address. -/
def callback (m : TimerManager Cb) (a : Nat) : Option Cb := (m.heap a).bind Timer.cb

/-- The timer at an address is recurring. -/
def isRecurring (m : TimerManager Cb) (a : Nat) : Bool := (m.heap a).any Timer.recurring

/-- The timers that are due at a clock reading, in the order of the set. -/
def due (m : TimerManager Cb) (now : UInt64) : List Nat :=
  m.timers.filter fun a => m.next a ≤ now

/-- The timers that expire: all of them when the clock has gone back. -/
def expiring (m : TimerManager Cb) (now : UInt64) : List Nat :=
  if (m.detectClockRollover now).1 then m.timers else m.due now

/-- Increasing in `m_next` and the address. -/
def Increasing (m : TimerManager Cb) (as : List Nat) : Prop :=
  as.Pairwise fun a b => m.next a < m.next b ∨ m.next a = m.next b ∧ a < b

/-- What `listExpiredCb` at the clock reading `now` owes its caller. -/
structure ExpiresExactly (m : TimerManager Cb) (now : UInt64) (cbs : List (Option Cb))
    (m' : TimerManager Cb) : Prop where
  callbacks : cbs = (m.expiring now).map m.callback
  increasing : m.Increasing (m.expiring now)
  mem_iff : ∀ a, a ∈ m'.timers ↔
    a ∈ m.timers ∧ a ∉ m.expiring now ∨ a ∈ m.expiring now ∧ m.isRecurring a = true
  ordered : m'.Increasing m'.timers
  unchanged : ∀ a, a ∉ m.expiring now → m'.heap a = m.heap a
  exist : ∀ a ∈ m.expiring now, (m.heap a).isSome
  rearmed : ∀ a ∈ m.expiring now, ∀ t, m.heap a = some t → t.recurring = true →
    m'.heap a = some { t with next := now + t.ms }
  disarmed : ∀ a ∈ m.expiring now, ∀ t, m.heap a = some t → t.recurring = false →
    m'.heap a = some { t with cb := none }

/-- A timer that expires is in the set. -/
theorem mem_timers_of_expiring (ha : a ∈ m.expiring now) : a ∈ m.timers := by
  unfold expiring at ha
  split at ha
  · exact ha
  · exact List.mem_of_mem_filter ha

/-! ### The invariant -/

/-- The set is ordered, points to timers that exist, and holds every timer that has a
callback. -/
structure Ordered (m : TimerManager Cb) : Prop where
  sorted : OrderedSet.Sorted m.before m.timers
  exist : ∀ a ∈ m.timers, (m.heap a).isSome
  armed : ∀ a, m.Armed a → a ∈ m.timers

/-- The deadlines of a sorted set increase. -/
theorem increasing_of_sorted {as : List Nat} (h : OrderedSet.Sorted m.before as) :
    m.Increasing as := by
  apply List.Pairwise.imp _ h
  intro a b hab
  rw [before_iff] at hab
  rw [UInt64.lt_iff_toNat_lt, ← UInt64.toNat_inj]
  exact hab

/-- A timer that is not in the set is inserted. -/
theorem sorted_insert (h : OrderedSet.Sorted m.before m.timers) (ha : a ∉ m.timers)
    (t : Timer Cb) :
    OrderedSet.Sorted (m.store a t).before
        (OrderedSet.insert (m.store a t).before m.timers a).1 ∧
      ∀ b, b ∈ (OrderedSet.insert (m.store a t).before m.timers a).1 ↔ b = a ∨ b ∈ m.timers :=
  OrderedSet.insert_of_not_mem (m.store a t).before_strictLinear (sorted_store h ha t) ha

/-- Of a state only the objects and the set play a part. -/
theorem Ordered.congr (h : m.Ordered) (hheap : m'.heap = m.heap) (htimers : m'.timers = m.timers) :
    m'.Ordered := by
  obtain ⟨heap, timers, tickled, previouseTime⟩ := m
  obtain ⟨heap', timers', tickled', previouseTime'⟩ := m'
  subst hheap htimers
  exact ⟨h.sorted, h.exist, h.armed⟩

/-- **Putting an object into the set** that is not in it. -/
theorem Ordered.insert (h : OrderedSet.Sorted m.before m.timers)
    (hexist : ∀ b ∈ m.timers, (m.heap b).isSome) (harmed : ∀ b, b ≠ a → m.Armed b → b ∈ m.timers)
    (ha : a ∉ m.timers) (t : Timer Cb) : ((m.store a t).insertTimer a).2.Ordered := by
  obtain ⟨hsorted, hmem⟩ := sorted_insert h ha t
  refine ⟨hsorted, ?_, ?_⟩
  · intro b hb
    rcases (hmem b).mp hb with rfl | hb
    · exact Option.isSome_iff_exists.mpr ⟨t, store_heap_self m b t⟩
    · have hne : b ≠ a := fun heq => ha (heq ▸ hb)
      exact (congrArg Option.isSome (store_heap_ne m t hne)).trans (hexist b hb)
  · intro b hb
    by_cases hne : b = a
    · exact (hmem b).mpr (.inl hne)
    · exact (hmem b).mpr (.inr (harmed b hne ((armed_store_ne t hne).mp hb)))

/-- **Taking a timer out** of the set. -/
theorem Ordered.takeOut (h : m.Ordered) (ha : a ∈ m.timers) :
    ∃ timers, OrderedSet.erase m.timers (OrderedSet.find m.before m.timers a) = some timers ∧
      OrderedSet.Sorted m.before timers ∧ ∀ b, b ∈ timers ↔ b ∈ m.timers ∧ b ≠ a :=
  OrderedSet.erase_find m.before_strictLinear h.sorted ha

/-- What is left of the set once a timer was erased from it. -/
theorem Ordered.takenOut (h : m.Ordered) (ha : a ∈ m.timers) {timers : List Nat}
    (herase : OrderedSet.erase m.timers (OrderedSet.find m.before m.timers a) = some timers) :
    OrderedSet.Sorted m.before timers ∧ ∀ b, b ∈ timers ↔ b ∈ m.timers ∧ b ≠ a := by
  obtain ⟨rest, hrest, hleft⟩ := h.takeOut ha
  cases Option.some.inj (herase.symm.trans hrest)
  exact hleft

/-- **Arming a timer anew**, with any new `m_next`. -/
theorem Ordered.rearm (h : m.Ordered) {timers : List Nat}
    (hsorted : OrderedSet.Sorted m.before timers)
    (hmem : ∀ b, b ∈ timers ↔ b ∈ m.timers ∧ b ≠ a) (t : Timer Cb) :
    ((({ m with timers } : TimerManager Cb).store a t).insertTimer a).2.Ordered := by
  refine Ordered.insert (m := { m with timers }) hsorted ?_ ?_ ?_ t
  · intro b hb
    exact h.exist b ((hmem b).mp hb).1
  · intro b hne hb
    exact (hmem b).mpr ⟨h.armed b hb, hne⟩
  · intro ha
    exact ((hmem a).mp ha).2 rfl

/-! ### The cut -/

/-- **The timers taken out** are the timers that are due, for every address of the
probe. -/
theorem take_expiredCount (h : m.Ordered) {nowTimer : Nat} (hprobe : m.heap nowTimer = none)
    (now : UInt64) :
    m.timers.take (m.expiredCount now false nowTimer) = m.due now := by
  have hne : ∀ a ∈ m.timers, a ≠ nowTimer := by
    rintro a ha rfl
    have hsome := h.exist a ha
    rw [hprobe] at hsome
    cases hsome
  -- the order of the set with the probe stored beside it
  generalize hwith : m.store nowTimer { recurring := false, ms := 0, next := now, cb := none } = w
  have hprobeNext : w.next nowTimer = now := by
    rw [← hwith]
    exact next_store_self
  have hnext : ∀ a ∈ m.timers, w.next a = m.next a := by
    intro a ha
    rw [← hwith]
    exact next_store_ne (hne a ha)
  have hsorted : OrderedSet.Sorted w.before m.timers := by
    rw [← hwith]
    refine sorted_store h.sorted (fun ha => ?_) _
    exact hne nowTimer ha rfl
  have hle : ∀ a, (m.next a ≤ now ↔ (m.next a).toNat ≤ now.toNat) := fun a =>
    UInt64.le_iff_toNat_le
  have hsplit := OrderedSet.below_append_lowerBound w.before m.timers nowTimer
  have hlow : ∀ a ∈ OrderedSet.below w.before m.timers nowTimer,
      decide (m.next a ≤ now) = true := by
    intro a ha
    have hlt := (before_iff w a nowTimer).mp (OrderedSet.lt_of_mem_below ha)
    have hin : a ∈ m.timers := hsplit ▸ List.mem_append_left _ ha
    rw [hprobeNext, hnext a hin] at hlt
    exact decide_eq_true ((hle a).mpr (by omega))
  -- behind the lower bound no timer is due earlier than now
  have hge : ∀ a ∈ OrderedSet.lowerBound w.before m.timers nowTimer,
      now.toNat ≤ (m.next a).toNat := by
    intro a ha
    have hin : a ∈ m.timers := hsplit ▸ List.mem_append_right _ ha
    have hnot := hsorted.not_lt_of_mem_lowerBound w.before_strictLinear ha
    rcases Nat.lt_or_ge (m.next a).toNat now.toNat with hlt | hge
    · rw [(before_iff w a nowTimer).mpr (.inl (by rw [hprobeNext, hnext a hin]; exact hlt))] at hnot
      cases hnot
    · exact hge
  have hhigh : (OrderedSet.lowerBound w.before m.timers nowTimer).takeWhile
        (fun a => w.next a == now) =
      (OrderedSet.lowerBound w.before m.timers nowTimer).filter
        (fun a => decide (m.next a ≤ now)) := by
    have hlast : OrderedSet.Sorted w.before (OrderedSet.lowerBound w.before m.timers nowTimer) :=
      List.Pairwise.sublist (List.dropWhile_sublist _) hsorted
    have heq : ∀ a ∈ OrderedSet.lowerBound w.before m.timers nowTimer,
        (w.next a == now) = decide (m.next a ≤ now) := by
      intro a ha
      have hin : a ∈ m.timers := hsplit ▸ List.mem_append_right _ ha
      have hfar := hge a ha
      rw [hnext a hin, Bool.eq_iff_iff, beq_iff_eq, decide_eq_true_eq, hle, ← UInt64.toNat_inj]
      omega
    rw [hlast.takeWhile_eq_filter, List.filter_congr heq]
    intro a ha b hb hab hbnow
    have hin : a ∈ m.timers := hsplit ▸ List.mem_append_right _ ha
    have hin' : b ∈ m.timers := hsplit ▸ List.mem_append_right _ hb
    have hlt := (before_iff w a b).mp hab
    rw [heq b hb, decide_eq_true_eq, hle] at hbnow
    rw [heq a ha, decide_eq_true_eq, hle]
    rw [hnext a hin, hnext b hin'] at hlt
    omega
  have hcount : m.expiredCount now false nowTimer =
      (OrderedSet.below w.before m.timers nowTimer).length +
        ((OrderedSet.lowerBound w.before m.timers nowTimer).takeWhile
          fun a => w.next a == now).length := by
    rw [← hwith]
    rfl
  have hfront := List.prefix_iff_eq_take.mp
    (List.takeWhile_prefix (fun a => w.next a == now)
      (l := OrderedSet.lowerBound w.before m.timers nowTimer))
  calc m.timers.take (m.expiredCount now false nowTimer)
      = (OrderedSet.below w.before m.timers nowTimer ++
          OrderedSet.lowerBound w.before m.timers nowTimer).take
            (m.expiredCount now false nowTimer) := by rw [hsplit]
    _ = OrderedSet.below w.before m.timers nowTimer ++
          (OrderedSet.lowerBound w.before m.timers nowTimer).takeWhile
            (fun a => w.next a == now) := by
        rw [hcount, List.take_length_add_append, ← hfront]
    _ = (OrderedSet.below w.before m.timers nowTimer ++
          OrderedSet.lowerBound w.before m.timers nowTimer).filter
            (fun a => decide (m.next a ≤ now)) := by
        rw [hhigh, List.filter_append, List.filter_eq_self.mpr hlow]
    _ = m.due now := by rw [hsplit, due]

/-! ### The loop -/

/-- What happens to an expired timer. -/
def afterFire (now : UInt64) (t : Timer Cb) : Timer Cb :=
  if t.recurring then { t with next := now + t.ms } else { t with cb := none }

/-- What the loop over `expired` leaves behind. -/
structure Fired (now : UInt64) (expired : List Nat) (m m' : TimerManager Cb) : Prop where
  sorted : OrderedSet.Sorted m'.before m'.timers
  mem_iff : ∀ a, a ∈ m'.timers ↔ a ∈ m.timers ∨ a ∈ expired ∧ m.isRecurring a = true
  same : ∀ a, a ∉ expired → m'.heap a = m.heap a
  fired : ∀ a ∈ expired, m'.heap a = (m.heap a).map (afterFire now)

/-- One turn of the loop. -/
theorem fire_cons (now : UInt64) (ht : m.heap a = some t) (expired : List Nat) :
    ∃ timers, timers = (if t.recurring then
        (OrderedSet.insert (m.store a (afterFire now t)).before m.timers a).1 else m.timers) ∧
      fire now (a :: expired) m =
        (t.cb :: (fire now expired { m.store a (afterFire now t) with timers }).1,
          (fire now expired { m.store a (afterFire now t) with timers }).2) := by
  refine ⟨_, rfl, ?_⟩
  cases hrec : t.recurring with
  | true => simp [fire, ht, hrec, afterFire]
  | false =>
      simp only [fire, ht, hrec, afterFire]
      rfl

/-- **The loop**, by induction on the timers still to come. -/
theorem fire_spec (now : UInt64) {expired : List Nat} :
    ∀ {m : TimerManager Cb}, OrderedSet.Sorted m.before m.timers → expired.Nodup →
      (∀ a ∈ expired, a ∉ m.timers ∧ (m.heap a).isSome) →
      (fire now expired m).1 = expired.map m.callback ∧
        Fired now expired m (fire now expired m).2 := by
  induction expired with
  | nil =>
      intro m h _ _
      exact ⟨rfl, h, by simp [fire], fun _ _ => rfl, by simp⟩
  | cons a expired ih =>
      intro m h hnodup hout
      obtain ⟨hnot, hnodup'⟩ := List.nodup_cons.mp hnodup
      obtain ⟨ha, hsome⟩ := hout a List.mem_cons_self
      obtain ⟨t, ht⟩ := Option.isSome_iff_exists.mp hsome
      obtain ⟨timers, htimers, hfire⟩ := fire_cons now ht expired
      obtain ⟨hsorted, hmem⟩ := sorted_insert h ha (afterFire now t)
      have hrecurring : m.isRecurring a = t.recurring := by simp [isRecurring, ht]
      have hturn : OrderedSet.Sorted (m.store a (afterFire now t)).before timers ∧
          ∀ b, b ∈ timers ↔ b ∈ m.timers ∨ b = a ∧ m.isRecurring a = true := by
        rw [htimers, hrecurring]
        cases t.recurring with
        | true =>
            refine ⟨hsorted, fun b => ?_⟩
            rw [if_pos rfl, hmem b]
            tauto
        | false =>
            refine ⟨sorted_store h ha _, fun b => ?_⟩
            simp
      have hkeep : ∀ b ∈ expired, (m.store a (afterFire now t)).heap b = m.heap b := fun b hb =>
        store_heap_ne m _ fun heq => hnot (heq ▸ hb)
      generalize hmid : ({ m.store a (afterFire now t) with timers } : TimerManager Cb) = mid
        at hfire
      have hheap : mid.heap = (m.store a (afterFire now t)).heap := by rw [← hmid]
      have hset : mid.timers = timers := by rw [← hmid]
      obtain ⟨hcbs, hfired⟩ := ih (m := mid) (by rw [← hmid]; exact hturn.1) hnodup' (by
        intro b hb
        obtain ⟨hb', hsome'⟩ := hout b (List.mem_cons_of_mem a hb)
        rw [hset, hheap, hkeep b hb, hturn.2]
        refine ⟨?_, hsome'⟩
        rintro (hin | ⟨rfl, -⟩)
        · exact hb' hin
        · exact hnot hb)
      rw [hfire]
      refine ⟨?_, hfired.sorted, ?_, ?_, ?_⟩
      · have hmap : expired.map mid.callback = expired.map m.callback := by
          apply List.map_congr_left
          intro b hb
          rw [callback, callback, hheap, hkeep b hb]
        rw [hcbs, hmap, List.map_cons, callback, ht]
        rfl
      · intro b
        have hrec : b ∈ expired → mid.isRecurring b = m.isRecurring b := fun hb => by
          rw [isRecurring, isRecurring, hheap, hkeep b hb]
        rw [hfired.mem_iff, hset, hturn.2, List.mem_cons]
        constructor
        · rintro ((hin | ⟨rfl, hr⟩) | ⟨hb, hr⟩)
          · exact .inl hin
          · exact .inr ⟨.inl rfl, hr⟩
          · exact .inr ⟨.inr hb, hrec hb ▸ hr⟩
        · rintro (hin | ⟨rfl | hb, hr⟩)
          · exact .inl (.inl hin)
          · exact .inl (.inr ⟨rfl, hr⟩)
          · exact .inr ⟨hb, (hrec hb).symm ▸ hr⟩
      · intro b hb
        rw [List.mem_cons, not_or] at hb
        rw [hfired.same b hb.2, hheap, store_heap_ne m _ hb.1]
      · intro b hb
        rcases List.mem_cons.mp hb with rfl | hb
        · rw [hfired.same b hnot, hheap, store_heap_self, ht]
          rfl
        · rw [hfired.fired b hb, hheap, hkeep b hb]

/-! ### The whole call -/

/-- Nothing expires. -/
theorem exact_of_none (h : m.Ordered) (hnone : m.expiring now = []) (hheap : m'.heap = m.heap)
    (htimers : m'.timers = m.timers) : ExpiresExactly m now [] m' := by
  have h' : m'.Ordered := h.congr hheap htimers
  constructor
  · rw [hnone]
    rfl
  · rw [hnone]
    exact List.Pairwise.nil
  · intro a
    rw [hnone, htimers]
    simp
  · exact increasing_of_sorted h'.sorted
  · intro a _
    rw [hheap]
  · rw [hnone]
    simp
  · rw [hnone]
    simp
  · rw [hnone]
    simp

/-- The front of the set is taken out and goes through the loop. -/
theorem exact_of_take (h : m.Ordered) {count : Nat}
    (hcount : m.timers.take count = m.expiring now) :
    ExpiresExactly m now
      (fire now (m.timers.take count)
        { m with timers := m.timers.drop count, previouseTime := now }).1
      (fire now (m.timers.take count)
        { m with timers := m.timers.drop count, previouseTime := now }).2 := by
  have hsplit : m.timers.take count ++ m.timers.drop count = m.timers :=
    List.take_append_drop count m.timers
  have hnodup := h.sorted.nodup m.before_strictLinear
  rw [← hsplit] at hnodup
  obtain ⟨hfront, -, hdisjoint⟩ := List.nodup_append.mp hnodup
  have hin : ∀ a ∈ m.timers.take count, a ∈ m.timers := fun a ha => List.mem_of_mem_take ha
  have hrest : ∀ a, a ∈ m.timers.drop count ↔ a ∈ m.timers ∧ a ∉ m.timers.take count := by
    intro a
    constructor
    · intro ha
      exact ⟨List.mem_of_mem_drop ha, fun hfront' => hdisjoint a hfront' a ha rfl⟩
    · rintro ⟨ha, hnot⟩
      rw [← hsplit] at ha
      exact (List.mem_append.mp ha).resolve_left hnot
  obtain ⟨hcbs, hfired⟩ := fire_spec (m := { m with
      timers := m.timers.drop count, previouseTime := now }) now
    (List.Pairwise.sublist (List.drop_sublist _ _) h.sorted) hfront
    fun a ha => ⟨fun hback => ((hrest a).mp hback).2 ha, h.exist a (hin a ha)⟩
  rw [hcount] at hcbs hfired hrest hin ⊢
  constructor
  · exact hcbs
  · rw [← hcount]
    exact increasing_of_sorted (List.Pairwise.sublist (List.take_sublist _ _) h.sorted)
  · intro a
    rw [hfired.mem_iff, hrest]
    rfl
  · exact increasing_of_sorted hfired.sorted
  · exact hfired.same
  · exact fun a ha => h.exist a (hin a ha)
  · intro a ha t ht hrec
    have hheap : _ = (m.heap a).map (afterFire now) := hfired.fired a ha
    rw [hheap, ht, Option.map_some, afterFire, if_pos hrec]
  · intro a ha t ht hrec
    have hheap : _ = (m.heap a).map (afterFire now) := hfired.fired a ha
    rw [hheap, ht, Option.map_some, afterFire, if_neg (by rw [hrec]; exact Bool.false_ne_true)]

/-- **`listExpiredCb`** in an ordered state. -/
theorem listExpiredCb_exact (h : m.Ordered) {nowTimer : Nat} (hprobe : m.heap nowTimer = none)
    (now : UInt64) :
    ExpiresExactly m now (m.listExpiredCb now nowTimer).1 (m.listExpiredCb now nowTimer).2 := by
  cases htimers : m.timers with
  | nil =>
      have hcall : m.listExpiredCb now nowTimer = ([], m) := by
        unfold listExpiredCb
        rw [htimers]
      have hnone : m.expiring now = [] := by
        rw [expiring, due, htimers]
        simp
      rw [hcall]
      exact exact_of_none h hnone rfl rfl
  | cons first rest =>
      by_cases hearly : (!(m.detectClockRollover now).1 && decide (m.next first > now)) = true
      · have hcall : m.listExpiredCb now nowTimer = ([], (m.detectClockRollover now).2) := by
          unfold listExpiredCb
          rw [htimers]
          exact if_pos hearly
        obtain ⟨hback, hlate⟩ := Bool.and_eq_true_iff.mp hearly
        have hnone : m.expiring now = [] := by
          have hback' : ¬ (m.detectClockRollover now).1 = true := by simpa using hback
          rw [expiring, if_neg hback', due, List.filter_eq_nil_iff]
          have hfirst : now.toNat < (m.next first).toNat :=
            UInt64.lt_iff_toNat_lt.mp (of_decide_eq_true hlate)
          have hsorted := h.sorted
          rw [htimers] at hsorted
          intro a ha hdue
          rw [decide_eq_true_eq, UInt64.le_iff_toNat_le] at hdue
          rw [htimers] at ha
          rcases List.mem_cons.mp ha with rfl | ha
          · omega
          · have hlt := (before_iff m first a).mp ((List.pairwise_cons.mp hsorted).1 a ha)
            omega
        rw [hcall]
        exact exact_of_none h hnone rfl rfl
      · have hcall : m.listExpiredCb now nowTimer =
            fire now (m.timers.take ((m.detectClockRollover now).2.expiredCount now
                (m.detectClockRollover now).1 nowTimer))
              { m with
                timers := m.timers.drop ((m.detectClockRollover now).2.expiredCount now
                  (m.detectClockRollover now).1 nowTimer)
                previouseTime := now } := by
          unfold listExpiredCb
          split
          · next hnil => rw [htimers] at hnil; cases hnil
          · next first' rest' heq =>
              rw [htimers] at heq
              cases heq
              exact if_neg hearly
        have hcount : m.timers.take ((m.detectClockRollover now).2.expiredCount now
            (m.detectClockRollover now).1 nowTimer) = m.expiring now := by
          have h' : (m.detectClockRollover now).2.Ordered := h.congr rfl rfl
          rw [expiring]
          cases (m.detectClockRollover now).1 with
          | true => exact List.take_length
          | false => exact take_expiredCount h' hprobe now
        rw [hcall]
        exact exact_of_take h hcount

/-! ### The invariant of every run -/

/-- The empty set is ordered. -/
theorem new_ordered (start : UInt64) : (new start : TimerManager Cb).Ordered :=
  ⟨List.Pairwise.nil, by simp [new], by simp [new, Armed]⟩

/-- An insertion keeps the set ordered. -/
theorem insertTimer_ordered (h : m.Ordered) (ha : m.heap a = none) (t : Timer Cb) :
    ((m.store a t).insertTimer a).2.Ordered := by
  refine .insert h.sorted h.exist (fun b _ hb => h.armed b hb) (fun hin => ?_) t
  have hsome := h.exist a hin
  rw [ha] at hsome
  cases hsome

/-- `cancel` keeps the set ordered. -/
theorem cancel_ordered {ok : Bool} (h : m.Ordered) (ht : m.heap a = some t)
    (hcall : m.cancel a t = some (ok, m')) : m'.Ordered := by
  obtain ⟨-, rfl⟩ | ⟨cb, timers, hcb, herase, rfl⟩ := cancel_cases hcall
  · exact h
  · have ha : a ∈ m.timers := h.armed a ⟨t, ht, by simp [hcb]⟩
    have hbefore : (m.store a { t with cb := none }).before = m.before :=
      before_store_same_next m ht rfl
    rw [hbefore] at herase
    obtain ⟨hsorted, hmem⟩ := h.takenOut ha herase
    refine ⟨?_, ?_, ?_⟩
    · show OrderedSet.Sorted (m.store a { t with cb := none }).before timers
      rw [hbefore]
      exact hsorted
    · intro b hb
      obtain ⟨hin, hne⟩ := (hmem b).mp hb
      exact (congrArg Option.isSome (store_heap_ne m _ hne)).trans (h.exist b hin)
    · intro b hb
      by_cases hne : b = a
      · subst hne
        obtain ⟨t', ht', hcb'⟩ := hb
        rw [show _ = some _ from store_heap_self m b { t with cb := none }] at ht'
        cases ht'
        cases hcb'
      · exact (hmem b).mpr ⟨h.armed b ((armed_store_ne _ hne).mp hb), hne⟩

/-- `refresh` keeps the set ordered. -/
theorem refresh_ordered {ok : Bool} (h : m.Ordered) (ht : m.heap a = some t)
    (hcall : m.refresh a t now = some (ok, m')) : m'.Ordered := by
  obtain ⟨-, rfl⟩ | ⟨cb, timers, hcb, herase, rfl⟩ := refresh_cases hcall
  · exact h
  · obtain ⟨hsorted, hmem⟩ := h.takenOut (h.armed a ⟨t, ht, by simp [hcb]⟩) herase
    exact (h.rearm hsorted hmem _).congr rfl rfl

/-- `reset` keeps the set ordered. -/
theorem reset_ordered {ok front : Bool} {ms : UInt64} {fromNow : Bool} (h : m.Ordered)
    (ht : m.heap a = some t) (hcall : m.reset a t ms fromNow now = some (ok, front, m')) :
    m'.Ordered := by
  obtain ⟨-, -, rfl⟩ | ⟨cb, timers, hcb, herase, hinsert⟩ := reset_cases hcall
  · exact h
  · obtain ⟨hsorted, hmem⟩ := h.takenOut (h.armed a ⟨t, ht, by simp [hcb]⟩) herase
    have harmed := h.rearm hsorted hmem
      { t with ms, next := (if fromNow then now else t.next - t.ms) + ms }
    rw [hinsert] at harmed
    exact harmed

/-- An exact expiry keeps the set ordered. -/
theorem ExpiresExactly.ordered_after {cbs : List (Option Cb)} (h : m.Ordered)
    (hsorted : OrderedSet.Sorted m'.before m'.timers) (hexact : ExpiresExactly m now cbs m') :
    m'.Ordered := by
  refine ⟨hsorted, ?_, ?_⟩
  · intro b hb
    rcases (hexact.mem_iff b).mp hb with ⟨hin, hnot⟩ | ⟨hin, hrec⟩
    · rw [hexact.unchanged b hnot]
      exact h.exist b hin
    · obtain ⟨t, ht⟩ := Option.isSome_iff_exists.mp (hexact.exist b hin)
      have hrec' : t.recurring = true := by simpa [isRecurring, ht] using hrec
      rw [hexact.rearmed b hin t ht hrec']
      rfl
  · rintro b ⟨t', ht', hcb⟩
    by_cases hin : b ∈ m.expiring now
    · obtain ⟨t, ht⟩ := Option.isSome_iff_exists.mp (hexact.exist b hin)
      cases hrec : t.recurring with
      | true => exact (hexact.mem_iff b).mpr (.inr ⟨hin, by simp [isRecurring, ht, hrec]⟩)
      | false =>
          rw [hexact.disarmed b hin t ht hrec] at ht'
          cases ht'
          cases hcb
    · rw [hexact.unchanged b hin] at ht'
      exact (hexact.mem_iff b).mpr (.inl ⟨h.armed b ⟨t', ht', hcb⟩, hin⟩)

/-- Timers whose deadlines increase are sorted. -/
theorem sorted_of_increasing {as : List Nat} (h : m.Increasing as) :
    OrderedSet.Sorted m.before as := by
  apply List.Pairwise.imp _ h
  intro a b hab
  rw [before_iff, ← UInt64.lt_iff_toNat_lt, UInt64.toNat_inj]
  exact hab

/-- **One call** keeps the invariant. -/
theorem stepAny_ordered {op : AnyOp Cb} {out : Out Cb} (h : m.Ordered) (hvalid : m.ValidAny op)
    (hstep : stepAny m op = some (out, m')) : m'.Ordered := by
  cases op with
  | addEmpty now ms recurring a =>
      cases hstep
      exact insertTimer_ordered h hvalid _
  | call op =>
      cases op with
      | addTimer now ms cb recurring a =>
          cases hstep
          exact insertTimer_ordered h hvalid _
      | cancel a =>
          obtain ⟨t, ok, ht, hcall, -⟩ := step_cancel hstep
          exact cancel_ordered h ht hcall
      | refresh a now =>
          obtain ⟨t, ok, ht, hcall, -⟩ := step_refresh hstep
          exact refresh_ordered h ht hcall
      | reset a ms fromNow now =>
          obtain ⟨t, ok, front, ht, hcall, -⟩ := step_reset hstep
          exact reset_ordered h ht hcall
      | getNextTimer now =>
          cases hstep
          dsimp only
          split
          · exact h.congr rfl rfl
          · exact h.congr rfl rfl
      | listExpiredCb now nowTimer =>
          cases hstep
          have hexact := listExpiredCb_exact h hvalid now
          exact hexact.ordered_after h (sorted_of_increasing hexact.ordered)
      | release a =>
          cases hstep
          have hkeep : ∀ b, b ≠ a →
              ({ m with heap := fun b => if b = a then none else m.heap b } :
                TimerManager Cb).heap b = m.heap b := fun b hne => if_neg hne
          have hne : ∀ b ∈ m.timers, b ≠ a := fun b hb heq => hvalid.2 (heq ▸ hb)
          refine ⟨?_, ?_, ?_⟩
          · exact h.sorted.congr fun b hb c hc =>
              before_congr (hkeep b (hne b hb)) (hkeep c (hne c hc))
          · intro b hb
            rw [hkeep b (hne b hb)]
            exact h.exist b hb
          · rintro b ⟨t, ht, hcb⟩
            have hb : b ≠ a := by
              rintro rfl
              cases (if_pos rfl).symm.trans ht
            exact h.armed b ⟨t, (hkeep b hb).symm.trans ht, hcb⟩

/-- **Every run** keeps the set ordered. -/
theorem run_ordered (start : UInt64) {ops : List (AnyOp Cb)} {outs : List (Out Cb)}
    (hvalid : Machine.Meets stepAny ValidAny (new start) ops)
    (hrun : Machine.run stepAny (new start) ops = some (outs, m)) : m.Ordered := by
  have hstep : ∀ (m : TimerManager Cb) op out m', m.Ordered → m.ValidAny op →
      stepAny m op = some (out, m') → m'.Ordered ∧ True :=
    fun m op out m' h hop hcall => ⟨stepAny_ordered h hop hcall, trivial⟩
  exact (Machine.run_invariant_of_meets hstep (new_ordered start) hvalid hrun).1

/-- **Expiry is exact.**  In every state reached by a run of calls, at every clock reading
and for every address of the probe, `listExpiredCb` returns the callbacks of the timers
that are due, in order, or of all timers when the clock has gone back; the recurring ones
of them are armed again, the others have lost their callback and are no longer in the
set, and no other object has changed. -/
theorem expires_exactly (start : UInt64) {ops : List (AnyOp Cb)} {outs : List (Out Cb)}
    (hvalid : Machine.Meets stepAny ValidAny (new start) ops)
    (hrun : Machine.run stepAny (new start) ops = some (outs, m)) (now : UInt64) {nowTimer : Nat}
    (hprobe : m.heap nowTimer = none) :
    ExpiresExactly m now (m.listExpiredCb now nowTimer).1 (m.listExpiredCb now nowTimer).2 :=
  listExpiredCb_exact (run_ordered start hvalid hrun) hprobe now

/-- Four timers of which three are due at 150, one of them without a callback and one of
them recurring with the period zero; the probe lies between them. -/
theorem expires_exactly_at_150 :
    let ops : List (AnyOp Nat) := [.call (.addTimer 100 50 0 false 9), .addEmpty 100 50 false 3,
      .call (.addTimer 150 0 1 true 6), .call (.addTimer 100 60 2 false 1)]
    ∃ outs m, Machine.run stepAny (new 0 : TimerManager Nat) ops = some (outs, m) ∧
      m.expiring 150 = [3, 6, 9] ∧
      ExpiresExactly m 150 (m.listExpiredCb 150 5).1 (m.listExpiredCb 150 5).2 := by
  intro ops
  have hvalid : Machine.Meets stepAny ValidAny (new 0 : TimerManager Nat) ops := by
    decide
  have hend : (Machine.run stepAny (new 0 : TimerManager Nat) ops).any
      (fun r => decide (r.2.expiring 150 = [3, 6, 9] ∧ r.2.heap 5 = none)) = true := by
    decide
  obtain ⟨⟨outs, m⟩, hrun, hcond⟩ := (Option.any_eq_true _ _).mp hend
  obtain ⟨hdue, hprobe⟩ := of_decide_eq_true hcond
  exact ⟨outs, m, hrun, hdue, expires_exactly 0 hvalid hrun 150 hprobe⟩

end TimerManager

end Mingo
