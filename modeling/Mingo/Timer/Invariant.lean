import Mingo.Timer.Basic

/-!
# The timer set stays ordered

`m_timers` is ordered by a field of the objects it points to, and four of the
calls write that field.  `Consistent m out` is the invariant while the timers
`out` are taken out of the set: the others are in the set exactly while they
have a callback, and the set is strictly ordered by their current `m_next`.

* `Consistent.takeOut`, `Consistent.arm`, `Consistent.disarm` -- erasing a
  timer, and putting it back with or without a callback;
* `cancel_cases`, `refresh_cases`, `reset_cases` -- all that a call on a timer
  can do;
* `step_consistent` -- every call finds what it erases and keeps the
  invariant;
* `run_timers_consistent` -- so does every run, from a fresh manager.
-/

namespace Mingo

namespace TimerManager

variable {Cb : Type}

/-! ### The comparator -/

/-- Two objects compare by `m_next` and then by address. -/
theorem before_iff (m : TimerManager Cb) (a b : Nat) :
    m.before a b = true ↔ (m.next a).toNat < (m.next b).toNat ∨
      (m.next a).toNat = (m.next b).toNat ∧ a < b := by
  have hlt : ∀ x y : UInt64, x < y ↔ x.toNat < y.toNat := fun x y => UInt64.lt_iff_toNat_lt
  simp only [before, comparator, hlt]
  split
  · simp [*]
  · split
    · simp only [Bool.false_eq_true, false_iff]
      omega
    · simp only [decide_eq_true_eq]
      omega

/-- The comparator is a strict linear order on addresses. -/
theorem before_strictLinear (m : TimerManager Cb) : OrderedSet.StrictLinear m.before where
  irrefl a := by
    cases h : m.before a a with
    | false => rfl
    | true =>
        have hlt := (before_iff m a a).mp h
        omega
  trans a b c hab hbc := by
    rw [before_iff] at hab hbc ⊢
    omega
  total a b hne := by
    rw [before_iff, before_iff]
    omega

/-- The object that is stored. -/
@[simp]
theorem store_heap_self (m : TimerManager Cb) (a : Nat) (t : Timer Cb) :
    (m.store a t).heap a = some t := by
  simp [store]

/-- Any other object stays. -/
theorem store_heap_ne (m : TimerManager Cb) {a b : Nat} (t : Timer Cb) (h : b ≠ a) :
    (m.store a t).heap b = m.heap b := by
  simp [store, h]

/-- A store leaves the set. -/
@[simp]
theorem store_timers (m : TimerManager Cb) (a : Nat) (t : Timer Cb) :
    (m.store a t).timers = m.timers := rfl

/-- A store leaves the flag. -/
@[simp]
theorem store_tickled {m : TimerManager Cb} {a : Nat} {t : Timer Cb} :
    (m.store a t).tickled = m.tickled := rfl

/-- The deadline of the object that is stored. -/
theorem next_store_self {m : TimerManager Cb} {a : Nat} {t : Timer Cb} :
    (m.store a t).next a = t.next := by
  simp [next]

/-- Any other deadline stays. -/
theorem next_store_ne {m : TimerManager Cb} {a b : Nat} {t : Timer Cb} (h : b ≠ a) :
    (m.store a t).next b = m.next b := by
  unfold next
  rw [store_heap_ne m t h]

/-- The deadline of an object. -/
theorem next_eq {m : TimerManager Cb} {a : Nat} {t : Timer Cb} (ht : m.heap a = some t) :
    m.next a = t.next := by
  simp [next, ht]

/-- The order of two objects depends on no other. -/
theorem before_congr {m m' : TimerManager Cb} {a b : Nat} (ha : m'.heap a = m.heap a)
    (hb : m'.heap b = m.heap b) : m'.before a b = m.before a b := by
  have hnexta : m'.next a = m.next a := by rw [next, next, ha]
  have hnextb : m'.next b = m.next b := by rw [next, next, hb]
  rw [before, before, comparator, comparator, hnexta, hnextb]

/-- Writing an object without changing its `m_next` leaves all of the order
alone. -/
theorem before_store_same_next (m : TimerManager Cb) {a : Nat} {t t' : Timer Cb}
    (ht : m.heap a = some t) (hnext : t'.next = t.next) : (m.store a t').before = m.before := by
  have hsame : (m.store a t').next = m.next := by
    funext b
    by_cases hb : b = a
    · subst hb
      simp [next, ht, hnext]
    · simp [next, store_heap_ne m t' hb]
  funext b c
  simp [before, comparator, hsame]

/-! ### The invariant -/

/-- The object at an address has a callback. -/
def Armed (m : TimerManager Cb) (a : Nat) : Prop :=
  ∃ t, m.heap a = some t ∧ t.cb.isSome

/-- The invariant, while the timers `out` are taken out of the set. -/
structure Consistent (m : TimerManager Cb) (out : List Nat) : Prop where
  sorted : OrderedSet.Sorted m.before m.timers
  mem_iff : ∀ a, a ∉ out → (a ∈ m.timers ↔ m.Armed a)
  absent : ∀ a ∈ out, a ∉ m.timers

/-- The order of the set does not depend on an object that is not in it. -/
theorem sorted_store {m : TimerManager Cb} (h : OrderedSet.Sorted m.before m.timers) {a : Nat}
    (ha : a ∉ m.timers) (t : Timer Cb) : OrderedSet.Sorted (m.store a t).before m.timers := by
  apply h.congr
  intro b hb c hc
  apply before_congr
  · exact store_heap_ne m t fun heq => ha (heq ▸ hb)
  · exact store_heap_ne m t fun heq => ha (heq ▸ hc)

/-- A store leaves the other timers armed as they are. -/
theorem armed_store_ne {m : TimerManager Cb} {a b : Nat} (t : Timer Cb) (h : b ≠ a) :
    (m.store a t).Armed b ↔ m.Armed b := by
  rw [Armed, Armed, store_heap_ne m t h]

/-- **Taking a timer out** of the set: it is found, and the rest stays in
order. -/
theorem Consistent.takeOut {m : TimerManager Cb} (h : m.Consistent []) {a : Nat}
    (ha : a ∈ m.timers) :
    ∃ timers, OrderedSet.erase m.timers (OrderedSet.find m.before m.timers a) = some timers ∧
      ({ m with timers } : TimerManager Cb).Consistent [a] := by
  obtain ⟨timers, herase, hsorted, hmem⟩ :=
    OrderedSet.erase_find m.before_strictLinear h.sorted ha
  refine ⟨timers, herase, hsorted, ?_, ?_⟩
  · intro b hb
    have hne : b ≠ a := by simpa using hb
    have harmed := h.mem_iff b (by simp)
    constructor
    · intro hin
      exact harmed.mp ((hmem b).mp hin).1
    · intro hin
      exact (hmem b).mpr ⟨harmed.mpr hin, hne⟩
  · intro b hb hin
    have heq : b = a := by simpa using hb
    exact ((hmem b).mp hin).2 heq

/-- **Putting a timer back** with a callback and any new `m_next`. -/
theorem Consistent.arm {m : TimerManager Cb} {a : Nat} {out : List Nat}
    (h : m.Consistent (a :: out)) (hout : a ∉ out) {t : Timer Cb} (ht : t.cb.isSome) :
    ({ m.store a t with
        timers := (OrderedSet.insert (m.store a t).before m.timers a).1 } :
      TimerManager Cb).Consistent out := by
  have ha : a ∉ m.timers := h.absent a List.mem_cons_self
  obtain ⟨hsorted, hmem⟩ := OrderedSet.insert_of_not_mem (m.store a t).before_strictLinear
    (sorted_store h.sorted ha t) ha
  refine ⟨hsorted, ?_, ?_⟩
  · intro b hb
    show b ∈ (OrderedSet.insert (m.store a t).before m.timers a).1 ↔ (m.store a t).Armed b
    rw [hmem b]
    by_cases heq : b = a
    · subst heq
      simp [Armed, ht]
    · rw [armed_store_ne t heq, ← h.mem_iff b (by simp [heq, hb])]
      simp [heq]
  · intro b hb hin
    rcases (hmem b).mp hin with rfl | hin
    · exact hout hb
    · exact h.absent b (List.mem_cons_of_mem _ hb) hin

/-- **Leaving a timer out**, without a callback. -/
theorem Consistent.disarm {m : TimerManager Cb} {a : Nat} {out : List Nat}
    (h : m.Consistent (a :: out)) {t : Timer Cb} (ht : t.cb = none) :
    (m.store a t).Consistent out := by
  have ha : a ∉ m.timers := h.absent a List.mem_cons_self
  refine ⟨sorted_store h.sorted ha t, ?_, ?_⟩
  · intro b hb
    by_cases heq : b = a
    · subst heq
      simp [Armed, ht, ha]
    · rw [store_timers, armed_store_ne t heq]
      exact h.mem_iff b (by simp [heq, hb])
  · intro b hb
    exact h.absent b (List.mem_cons_of_mem _ hb)

/-- An address that is not in use can be counted as taken out. -/
theorem Consistent.fresh {m : TimerManager Cb} (h : m.Consistent []) {a : Nat}
    (ha : m.heap a = none) : m.Consistent [a] := by
  refine ⟨h.sorted, fun b _ => h.mem_iff b (by simp), ?_⟩
  intro b hb hin
  have heq : b = a := by simpa using hb
  obtain ⟨t, ht, _⟩ := (h.mem_iff b (by simp)).mp hin
  rw [heq, ha] at ht
  cases ht

/-- Taking out the first timers of the set, in order. -/
theorem Consistent.takeFront {m : TimerManager Cb} (h : m.Consistent []) (count : Nat) :
    ({ m with timers := m.timers.drop count } : TimerManager Cb).Consistent
      (m.timers.take count) ∧ (m.timers.take count).Nodup := by
  have hnodup : (m.timers.take count ++ m.timers.drop count).Nodup := by
    rw [List.take_append_drop]
    exact h.sorted.nodup m.before_strictLinear
  obtain ⟨hfront, _, hdisjoint⟩ := List.nodup_append.mp hnodup
  refine ⟨⟨List.Pairwise.sublist (List.drop_sublist _ _) h.sorted, ?_, ?_⟩, hfront⟩
  · intro a ha
    have hsplit : a ∈ m.timers ↔ a ∈ m.timers.take count ∨ a ∈ m.timers.drop count := by
      rw [← List.mem_append, List.take_append_drop]
    have harmed := h.mem_iff a (by simp)
    have hmem : a ∈ m.timers.drop count ↔ m.Armed a := by simpa [hsplit, ha] using harmed
    exact hmem
  · intro a ha hin
    exact hdisjoint a ha a hin rfl

/-! ### What a call on a timer does -/

section Called

variable {m m' : TimerManager Cb} {a : Nat} {t : Timer Cb} {out : Out Cb} {now ms : UInt64}
  {ok front fromNow : Bool}

/-- A call of `cancel` that returns. -/
theorem step_cancel (h : step m (.cancel a) = some (out, m')) :
    ∃ t ok, m.heap a = some t ∧ m.cancel a t = some (ok, m') ∧ out = .result ok false := by
  cases ht : m.heap a with
  | none => simp [step, ht] at h
  | some t =>
      simp only [step, ht] at h
      obtain ⟨⟨ok, u⟩, hcall, heq⟩ := Option.map_eq_some_iff.mp h
      cases heq
      exact ⟨t, ok, rfl, hcall, rfl⟩

/-- A call of `refresh` that returns. -/
theorem step_refresh (h : step m (.refresh a now) = some (out, m')) :
    ∃ t ok, m.heap a = some t ∧ m.refresh a t now = some (ok, m') ∧ out = .result ok false := by
  cases ht : m.heap a with
  | none => simp [step, ht] at h
  | some t =>
      simp only [step, ht] at h
      obtain ⟨⟨ok, u⟩, hcall, heq⟩ := Option.map_eq_some_iff.mp h
      cases heq
      exact ⟨t, ok, rfl, hcall, rfl⟩

/-- A call of `reset` that returns. -/
theorem step_reset (h : step m (.reset a ms fromNow now) = some (out, m')) :
    ∃ t ok front, m.heap a = some t ∧ m.reset a t ms fromNow now = some (ok, front, m') ∧
      out = .result ok front := by
  cases ht : m.heap a with
  | none => simp [step, ht] at h
  | some t =>
      simp only [step, ht] at h
      obtain ⟨⟨ok, front, u⟩, hcall, heq⟩ := Option.map_eq_some_iff.mp h
      cases heq
      exact ⟨t, ok, front, rfl, hcall, rfl⟩

/-- `cancel` takes the callback away and the timer out, if it has a callback. -/
theorem cancel_cases (h : m.cancel a t = some (ok, m')) :
    (t.cb = none ∧ m' = m) ∨ ∃ cb timers, t.cb = some cb ∧
      OrderedSet.erase m.timers
        (OrderedSet.find (m.store a { t with cb := none }).before m.timers a) = some timers ∧
      m' = { m.store a { t with cb := none } with timers } := by
  unfold cancel at h
  split at h
  · next hcb =>
      cases h
      exact .inl ⟨hcb, rfl⟩
  · next cb hcb =>
      obtain ⟨timers, herase, heq⟩ := Option.map_eq_some_iff.mp h
      cases heq
      exact .inr ⟨cb, timers, hcb, herase, rfl⟩

/-- `refresh` takes the timer out and puts it back with another `m_next`. -/
theorem refresh_cases (h : m.refresh a t now = some (ok, m')) :
    ((t.cb = none ∨ OrderedSet.find m.before m.timers a = none) ∧ m' = m) ∨
      ∃ cb timers, t.cb = some cb ∧
        OrderedSet.erase m.timers (OrderedSet.find m.before m.timers a) = some timers ∧
        m' = { ({ m with timers } : TimerManager Cb).store a { t with next := now + t.ms } with
          timers := (OrderedSet.insert
            (({ m with timers } : TimerManager Cb).store a { t with next := now + t.ms }).before
            timers a).1 } := by
  unfold refresh at h
  split at h
  · next hcb =>
      cases h
      exact .inl ⟨.inl hcb, rfl⟩
  · next cb hcb =>
      split at h
      · next hfind =>
          cases h
          exact .inl ⟨.inr hfind, rfl⟩
      · obtain ⟨timers, herase, heq⟩ := Option.map_eq_some_iff.mp h
        cases heq
        exact .inr ⟨cb, timers, hcb, herase, rfl⟩

/-- `reset` does so with another period, too, and a start of its choice. -/
theorem reset_cases (h : m.reset a t ms fromNow now = some (ok, front, m')) :
    ((fromNow = false ∨ t.cb = none ∨ OrderedSet.find m.before m.timers a = none) ∧
        front = false ∧ m' = m) ∨
      ∃ cb timers, t.cb = some cb ∧
        OrderedSet.erase m.timers (OrderedSet.find m.before m.timers a) = some timers ∧
        (({ m with timers } : TimerManager Cb).store a { t with
          ms, next := (if fromNow then now else t.next - t.ms) + ms }).insertTimer a =
            (front, m') := by
  unfold reset at h
  split at h
  · next hsame =>
      cases h
      have hkeep : fromNow = false := by
        cases fromNow with
        | false => rfl
        | true => simp at hsame
      exact .inl ⟨.inl hkeep, rfl, rfl⟩
  · split at h
    · next hcb =>
        cases h
        exact .inl ⟨.inr (.inl hcb), rfl, rfl⟩
    · next cb hcb =>
        split at h
        · next hfind =>
            cases h
            exact .inl ⟨.inr (.inr hfind), rfl, rfl⟩
        · obtain ⟨timers, herase, heq⟩ := Option.map_eq_some_iff.mp h
          exact .inr ⟨cb, timers, hcb, herase, (Prod.mk.inj heq).2⟩

end Called

/-! ### The calls -/

/-- The empty set is consistent. -/
theorem new_consistent (now : UInt64) : (new now : TimerManager Cb).Consistent [] := by
  refine ⟨List.Pairwise.nil, ?_, by simp⟩
  intro a _
  simp [new, Armed]

/-- The flags and the clock of the manager play no part in the invariant. -/
theorem Consistent.congr {m m' : TimerManager Cb} {out : List Nat} (h : m.Consistent out)
    (hheap : m'.heap = m.heap) (htimers : m'.timers = m.timers) : m'.Consistent out := by
  obtain ⟨heap, timers, tickled, previouseTime⟩ := m
  obtain ⟨heap', timers', tickled', previouseTime'⟩ := m'
  subst hheap htimers
  exact ⟨h.sorted, h.mem_iff, h.absent⟩

/-- The private `addTimer` of a timer that was taken out. -/
theorem Consistent.insertTimer {m : TimerManager Cb} {a : Nat} (h : m.Consistent [a])
    {t : Timer Cb} (ht : t.cb.isSome) : ((m.store a t).insertTimer a).2.Consistent [] :=
  (h.arm (by simp) ht).congr rfl rfl

/-- `addTimer` keeps the set consistent. -/
theorem addTimer_consistent {m : TimerManager Cb} (h : m.Consistent []) {a : Nat}
    (ha : m.heap a = none) (now ms : UInt64) (cb : Cb) (recurring : Bool) :
    (m.addTimer now ms cb recurring a).2.Consistent [] :=
  (h.fresh ha).insertTimer rfl

/-- `cancel` returns and keeps the set consistent. -/
theorem cancel_consistent {m : TimerManager Cb} (h : m.Consistent []) {a : Nat} {t : Timer Cb}
    (ht : m.heap a = some t) :
    ∃ ok m', m.cancel a t = some (ok, m') ∧ m'.Consistent [] := by
  cases hcb : t.cb with
  | none => exact ⟨false, m, by simp [cancel, hcb], h⟩
  | some cb =>
      have ha : a ∈ m.timers := (h.mem_iff a (by simp)).mpr ⟨t, ht, by simp [hcb]⟩
      obtain ⟨timers, herase, hout⟩ := h.takeOut ha
      have hbefore : (m.store a { t with cb := none }).before = m.before :=
        before_store_same_next m ht rfl
      refine ⟨true, { m.store a { t with cb := none } with timers }, ?_, ?_⟩
      · simp [cancel, hcb, hbefore, herase]
      · exact (hout.disarm rfl).congr rfl rfl

/-- `refresh` returns and keeps the set consistent. -/
theorem refresh_consistent {m : TimerManager Cb} (h : m.Consistent []) {a : Nat} {t : Timer Cb}
    (ht : m.heap a = some t) (now : UInt64) :
    ∃ ok m', m.refresh a t now = some (ok, m') ∧ m'.Consistent [] := by
  cases hcb : t.cb with
  | none => exact ⟨false, m, by simp [refresh, hcb], h⟩
  | some cb =>
      cases hfind : OrderedSet.find m.before m.timers a with
      | none => exact ⟨false, m, by simp [refresh, hcb, hfind], h⟩
      | some it =>
          have ha : a ∈ m.timers := (h.mem_iff a (by simp)).mpr ⟨t, ht, by simp [hcb]⟩
          obtain ⟨timers, herase, hout⟩ := h.takeOut ha
          rw [hfind] at herase
          refine ⟨true, _, by simp [refresh, hcb, hfind, herase]; rfl, ?_⟩
          exact hout.arm (by simp) (by simp)

/-- `reset` returns and keeps the set consistent. -/
theorem reset_consistent {m : TimerManager Cb} (h : m.Consistent []) {a : Nat} {t : Timer Cb}
    (ht : m.heap a = some t) (ms : UInt64) (fromNow : Bool) (now : UInt64) :
    ∃ ok atFront m', m.reset a t ms fromNow now = some (ok, atFront, m') ∧
      m'.Consistent [] := by
  by_cases hsame : (ms = t.ms && !fromNow) = true
  · exact ⟨true, false, m, by rw [reset, if_pos hsame], h⟩
  · cases hcb : t.cb with
    | none => exact ⟨false, false, m, by simp only [reset, if_neg hsame, hcb], h⟩
    | some cb =>
        cases hfind : OrderedSet.find m.before m.timers a with
        | none => exact ⟨false, false, m, by simp only [reset, if_neg hsame, hcb, hfind], h⟩
        | some it =>
            have ha : a ∈ m.timers := (h.mem_iff a (by simp)).mpr ⟨t, ht, by simp [hcb]⟩
            obtain ⟨timers, herase, hout⟩ := h.takeOut ha
            rw [hfind] at herase
            refine ⟨true, _, _, by
              simp only [reset, if_neg hsame, hcb, hfind, herase, Option.map_some]; rfl, ?_⟩
            exact hout.insertTimer (by simp)

/-- The loop over the expired timers, by induction on those still to come. -/
theorem fire_consistent (now : UInt64) {expired : List Nat} :
    ∀ {m : TimerManager Cb}, m.Consistent expired → expired.Nodup →
      (∀ a ∈ expired, m.Armed a) → (fire now expired m).2.Consistent [] := by
  induction expired with
  | nil => intro m h _ _; exact h
  | cons a expired ih =>
      intro m h hnodup harmed
      obtain ⟨hnot, hnodup'⟩ := List.nodup_cons.mp hnodup
      obtain ⟨t, ht, hcb⟩ := harmed a List.mem_cons_self
      have hrest : ∀ t', ∀ b ∈ expired, (m.store a t').Armed b := by
        intro t' b hb
        have hne : b ≠ a := fun heq => hnot (heq ▸ hb)
        exact (armed_store_ne t' hne).mpr (harmed b (List.mem_cons_of_mem a hb))
      by_cases hrec : t.recurring = true
      · simp only [fire, ht, hrec, if_true]
        exact ih (h.arm hnot hcb) hnodup' (hrest _)
      · simp only [fire, ht, hrec]
        exact ih (h.disarm rfl) hnodup' (hrest _)

/-- `listExpiredCb` keeps the set consistent. -/
theorem listExpiredCb_consistent {m : TimerManager Cb} (h : m.Consistent []) (now : UInt64)
    (nowTimer : Nat) : (m.listExpiredCb now nowTimer).2.Consistent [] := by
  cases htimers : m.timers with
  | nil => simpa [listExpiredCb, htimers] using h
  | cons first rest =>
      have h' : (m.detectClockRollover now).2.Consistent [] := h.congr rfl rfl
      simp only [listExpiredCb, htimers]
      split
      · exact h'
      · obtain ⟨hout, hnodup⟩ := h'.takeFront
          ((m.detectClockRollover now).2.expiredCount now (m.detectClockRollover now).1 nowTimer)
        apply fire_consistent now hout hnodup
        intro a ha
        exact (h'.mem_iff a (by simp)).mp (List.mem_of_mem_take ha)

/-- Freeing an object that the set does not point to. -/
theorem release_consistent {m : TimerManager Cb} (h : m.Consistent []) {a : Nat}
    (ha : a ∉ m.timers) :
    ({ m with heap := fun b => if b = a then none else m.heap b } :
      TimerManager Cb).Consistent [] := by
  refine ⟨?_, ?_, by simp⟩
  · apply h.sorted.congr
    intro b hb c hc
    apply before_congr
    · exact if_neg fun (heq : b = a) => ha (heq ▸ hb)
    · exact if_neg fun (heq : c = a) => ha (heq ▸ hc)
  · intro b _
    have hmem := h.mem_iff b (by simp)
    by_cases heq : b = a
    · subst heq
      simp [Armed, ha]
    · simpa [Armed, heq] using hmem

/-- **Every valid call** is defined and keeps the invariant. -/
theorem step_consistent {m : TimerManager Cb} (h : m.Consistent []) {op : Op Cb}
    (hvalid : m.Valid op) : ∃ out m', step m op = some (out, m') ∧ m'.Consistent [] := by
  cases op with
  | addTimer now ms cb recurring a =>
      exact ⟨_, _, rfl, addTimer_consistent h hvalid now ms cb recurring⟩
  | cancel a =>
      obtain ⟨t, ht⟩ := Option.isSome_iff_exists.mp hvalid
      obtain ⟨ok, m', hcall, h'⟩ := cancel_consistent h ht
      exact ⟨_, m', by simp only [step, ht, hcall]; rfl, h'⟩
  | refresh a now =>
      obtain ⟨t, ht⟩ := Option.isSome_iff_exists.mp hvalid
      obtain ⟨ok, m', hcall, h'⟩ := refresh_consistent h ht now
      exact ⟨_, m', by simp only [step, ht, hcall]; rfl, h'⟩
  | reset a ms fromNow now =>
      obtain ⟨t, ht⟩ := Option.isSome_iff_exists.mp hvalid
      obtain ⟨ok, atFront, m', hcall, h'⟩ := reset_consistent h ht ms fromNow now
      exact ⟨_, m', by simp only [step, ht, hcall]; rfl, h'⟩
  | getNextTimer now =>
      refine ⟨_, _, rfl, ?_⟩
      have h' : ({ m with tickled := false } : TimerManager Cb).Consistent [] := h.congr rfl rfl
      cases htimers : m.timers with
      | nil => simpa [getNextTimer, htimers] using h'
      | cons a rest => simpa [getNextTimer, htimers] using h'
  | listExpiredCb now nowTimer => exact ⟨_, _, rfl, listExpiredCb_consistent h now nowTimer⟩
  | release a =>
      exact ⟨_, _, rfl, release_consistent h hvalid.2⟩

/-- **The timer set of every run.**  Start with a fresh manager and take any
sequence of calls, at any clock readings.  Every call is defined, that is, no
call ever erases at `end()`.  In the state reached, `m_timers` is strictly
ordered by the current `m_next` and the address, holds no timer twice, and
holds a timer exactly while its callback is non-null; so `find` finds every
timer that has a callback, and every further call is defined too. -/
theorem run_timers_consistent (now : UInt64) {ops : List (Op Cb)}
    (hvalid : Machine.Meets step Valid (new now) ops) :
    ∃ outs m, Machine.run step (new now : TimerManager Cb) ops = some (outs, m) ∧
      m.timers.Pairwise (fun a b => m.next a < m.next b ∨ m.next a = m.next b ∧ a < b) ∧
      m.timers.Nodup ∧
      (∀ a, a ∈ m.timers ↔ ∃ t, m.heap a = some t ∧ t.cb.isSome) ∧
      (∀ a t, m.heap a = some t → t.cb.isSome →
        ∃ it, OrderedSet.find m.before m.timers a = some it ∧ m.timers[it]? = some a) ∧
      ∀ op, m.Valid op → (step m op).isSome := by
  have hstep : ∀ (m : TimerManager Cb) (op : Op Cb), m.Consistent [] → m.Valid op →
      ∃ out m', step m op = some (out, m') ∧ m'.Consistent [] :=
    fun m op h hv => step_consistent h hv
  obtain ⟨outs, m, hrun, h⟩ := Machine.run_defined_of_meets hstep (new_consistent now) hvalid
  have hmem := fun a => h.mem_iff a (by simp)
  refine ⟨outs, m, hrun, ?_, h.sorted.nodup m.before_strictLinear, hmem, ?_, ?_⟩
  · apply List.Pairwise.imp _ h.sorted
    intro a b hab
    rw [before_iff] at hab
    rw [UInt64.lt_iff_toNat_lt, ← UInt64.toNat_inj]
    exact hab
  · intro a t ht hcb
    obtain ⟨lo, hi, hsplit, hfind⟩ :=
      OrderedSet.find_of_mem m.before_strictLinear h.sorted ((hmem a).mpr ⟨t, ht, hcb⟩)
    exact ⟨lo.length, hfind, by simp [hsplit]⟩
  · intro op hop
    obtain ⟨out, m', hcall, _⟩ := step_consistent h hop
    simp [hcall]

/-- Two timers with one deadline, the later one reset to the front, the other
cancelled; then the clock passes both. -/
theorem run_timers_consistent_reset_cancel :
    let ops : List (Op Nat) := [.addTimer 100 50 0 true 8, .addTimer 100 50 1 false 4,
      .reset 8 10 false 120, .cancel 4, .listExpiredCb 200 6, .refresh 4 210]
    ∃ outs m, Machine.run step (new 0 : TimerManager Nat) ops = some (outs, m) ∧
      m.timers = [8] ∧ m.next 8 = 210 ∧ m.timers.Nodup := by
  intro ops
  have hvalid : Machine.Meets step Valid (new 0 : TimerManager Nat) ops := by
    decide
  obtain ⟨outs, m, hrun, _, hnodup, _⟩ := run_timers_consistent 0 hvalid
  have hend : (Machine.run step (new 0 : TimerManager Nat) ops).map
      (fun r => (r.2.timers, r.2.next 8)) = some ([8], 210) := by
    decide
  rw [hrun] at hend
  obtain ⟨htimers, hnext⟩ := Prod.mk.inj (Option.some.inj hend)
  exact ⟨outs, m, hrun, htimers, hnext, hnodup⟩

end TimerManager

end Mingo
