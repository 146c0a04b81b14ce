import Mathlib.Data.List.TakeWhile
import Mingo.Pool.Accounting

/-!
# The age limit of the pool

`m_createTime` is never assigned, and both age tests compare its sum with
`m_maxAliveTime` against the clock the wrong way round.  The pool therefore
discards connections while the clock reads less than `m_maxAliveTime`, and
later hands out and takes back connections of any age.

* `AgeLimit` -- what the two functions should do with a connection;
* `InTime` -- the condition on the state before a step under which they do it;
* `age_limit_iff` -- a run keeps the age limit exactly when all its steps meet
  that condition.
-/

namespace Mingo

namespace HttpConnectionPool

/-- What may be done with a connection, given the limits of the pool. -/
def PoolEvent.Allowed (maxAliveTime maxRequest : UInt32) : PoolEvent → Prop
  | .handedOut age => age ≤ maxAliveTime.toNat
  | .pooled age => age ≤ maxAliveTime.toNat
  | .discarded age connected request =>
      ¬ (connected ∧ age < maxAliveTime.toNat ∧ request < maxRequest.toUInt64)

instance (maxAliveTime maxRequest : UInt32) :
    DecidablePred (PoolEvent.Allowed maxAliveTime maxRequest)
  | .handedOut _ => inferInstanceAs (Decidable (_ ≤ _))
  | .pooled _ => inferInstanceAs (Decidable (_ ≤ _))
  | .discarded _ _ _ => inferInstanceAs (Decidable (¬ (_ ∧ _ ∧ _)))

/-- A step does nothing that the age limit forbids. -/
def AgeLimit (p : HttpConnectionPool) (op : Op) : Prop :=
  ∀ es q, step p op = some (es, q) → ∀ e ∈ es, PoolEvent.Allowed p.maxAliveTime p.maxRequest e

theorem ageLimit_iff_of_step {p q : HttpConnectionPool} {op : Op} {es : List PoolEvent}
    (hstep : step p op = some (es, q)) :
    AgeLimit p op ↔ ∀ e ∈ es, PoolEvent.Allowed p.maxAliveTime p.maxRequest e := by
  constructor
  · intro h
    exact h es q hstep
  · intro h es' q' hstep'
    rw [hstep] at hstep'
    cases hstep'
    exact h

instance (p : HttpConnectionPool) (op : Op) : Decidable (AgeLimit p op) :=
  match hstep : step p op with
  | none => isTrue (by simp [AgeLimit, hstep])
  | some (_, _) => decidable_of_iff _ (ageLimit_iff_of_step hstep).symm

/-- The condition: a loop over the pool that runs once the clock has reached
`m_maxAliveTime` finds no connection older than that at the first place where
it finds a connected one, an earlier one finds none that is connected; a
connected connection below the request limit is dropped when it is not older
than `m_maxAliveTime` but the clock has passed that value. -/
def InTime (p : HttpConnectionPool) : Op → Prop
  | .resume (.entered now) connected _ =>
      if p.maxAliveTime.toUInt64 ≤ now then
        ∀ a ∈ p.conns.find? connected, p.age a now ≤ p.maxAliveTime.toNat
      else ∀ a ∈ p.conns, connected a = false
  | .release a connected =>
      ∀ conn ∈ p.heap a, connected → conn.request + 1 < p.maxRequest.toUInt64 →
        p.age a p.clock ≤ p.maxAliveTime.toNat ∧
          (p.maxAliveTime.toNat < p.clock.toNat ∨ p.age a p.clock = p.maxAliveTime.toNat)
  | _ => True

instance (p : HttpConnectionPool) : DecidablePred p.InTime
  | .tick _ => isTrue trivial
  | .getConnection => isTrue trivial
  | .release a _ =>
      inferInstanceAs (Decidable (∀ conn ∈ p.heap a, _ → _ → _ ∧ (_ ∨ _)))
  | .resume (.entered now) connected _ =>
      inferInstanceAs (Decidable (if p.maxAliveTime.toUInt64 ≤ now then
        ∀ a ∈ p.conns.find? connected, p.age a now ≤ p.maxAliveTime.toNat
        else ∀ a ∈ p.conns, connected a = false))
  | .resume (.popped _ _ _) _ _ => isTrue trivial
  | .resume .connecting _ _ => isTrue trivial
  | .resume (.created _) _ _ => isTrue trivial
  | .resume .deleted _ _ => isTrue trivial
  | .resume (.pooling _) _ _ => isTrue trivial

/-- The accounting holds, and no creation time is ever set. -/
structure Dated (p : HttpConnectionPool) : Prop where
  accounted : p.Accounted
  createTime : ∀ a conn, p.heap a = some conn → conn.createTime = 0

variable {p q : HttpConnectionPool} {connected : Nat → Bool} {now : UInt64}

theorem resume_heap {c : Call} {made : Option Nat} {es : List PoolEvent}
    (hstep : p.resume connected made c = some (es, q)) :
    q.heap = p.heap ∨
      ∃ a new, q.heap = Function.update p.heap a new ∧
        ∀ conn ∈ new, conn.createTime = 0 ∨
          ∃ old, p.heap a = some old ∧ conn.createTime = old.createTime := by
  revert hstep
  fun_cases HttpConnectionPool.resume with
  | case1 => exact nofun
  | case3 => exact nofun
  | case4 _ ptr a =>
      rintro ⟨⟩
      exact .inr ⟨a, none, rfl, by simp⟩
  | case8 a ha =>
      rintro ⟨⟩
      exact .inr ⟨a, some {}, rfl, by simp⟩
  | case9 => exact nofun
  | _ =>
      rintro ⟨⟩
      exact .inl rfl

/-- What a step can do to the heap. -/
theorem step_heap {op : Op} {es : List PoolEvent} (hstep : step p op = some (es, q)) :
    q.heap = p.heap ∨
      ∃ a new, q.heap = Function.update p.heap a new ∧
        ∀ conn ∈ new, conn.createTime = 0 ∨
          ∃ old, p.heap a = some old ∧ conn.createTime = old.createTime := by
  cases op with
  | tick now =>
      simp only [step] at hstep
      split at hstep
      · cases hstep
        exact .inl rfl
      · cases hstep
  | getConnection =>
      cases hstep
      exact .inl rfl
  | release a alive =>
      simp only [step] at hstep
      split at hstep
      · cases hconn : p.heap a with
        | none => simp [releasePtr, hconn] at hstep
        | some conn =>
            simp only [releasePtr, hconn] at hstep
            split at hstep
            · cases hstep
              exact .inr ⟨a, none, rfl, by simp⟩
            · cases hstep
              refine .inr ⟨a, some { conn with request := conn.request + 1 }, rfl, ?_⟩
              rintro _ ⟨⟩
              exact .inr ⟨conn, hconn, rfl⟩
      · cases hstep
  | resume c connected made =>
      simp only [step] at hstep
      split at hstep
      · exact resume_heap (p := { p with calls := p.calls.erase c }) hstep
      · cases hstep

/-- Once the clock has reached `m_maxAliveTime` the loop stops at the first
connected connection. -/
theorem popLoop_late (connected : Nat → Bool) (hlate : p.maxAliveTime.toUInt64 ≤ now) :
    ∀ {l : List Nat}, (∀ a ∈ l, ∃ conn, p.heap a = some conn ∧ conn.createTime = 0) →
      ∃ rest, p.popLoop now connected l =
        some (l.find? connected, l.takeWhile fun a => !connected a, rest) := by
  intro l
  induction l with
  | nil => exact fun _ => ⟨[], rfl⟩
  | cons a l ih =>
      intro hl
      obtain ⟨conn, hconn, hzero⟩ := hl a List.mem_cons_self
      obtain ⟨rest, hrest⟩ := ih fun b hb => hl b (List.mem_cons_of_mem a hb)
      have hage : ¬ conn.createTime + p.maxAliveTime.toUInt64 > now := by
        rw [hzero, UInt64.zero_add]
        exact UInt64.not_lt.mpr hlate
      cases ha : connected a with
      | false => exact ⟨rest, by simp [popLoop, hconn, ha, hrest]⟩
      | true => exact ⟨l, by simp [popLoop, hconn, ha, hage]⟩

/-- Before that it discards the whole pool. -/
theorem popLoop_early (connected : Nat → Bool) (hearly : now < p.maxAliveTime.toUInt64) :
    ∀ {l : List Nat}, (∀ a ∈ l, ∃ conn, p.heap a = some conn ∧ conn.createTime = 0) →
      p.popLoop now connected l = some (none, l, []) := by
  intro l
  induction l with
  | nil => exact fun _ => rfl
  | cons a l ih =>
      intro hl
      obtain ⟨conn, hconn, hzero⟩ := hl a List.mem_cons_self
      have hrest := ih fun b hb => hl b (List.mem_cons_of_mem a hb)
      have hage : conn.createTime + p.maxAliveTime.toUInt64 > now := by
        rw [hzero, UInt64.zero_add]
        exact hearly
      simp [popLoop, hconn, hage, hrest]

theorem Dated.step (p : HttpConnectionPool) (op : Op) (es : List PoolEvent)
    (q : HttpConnectionPool) (h : p.Dated) (hstep : step p op = some (es, q)) : q.Dated := by
  refine ⟨Accounted.step p op es q h.accounted hstep, fun b conn hb => ?_⟩
  rcases step_heap hstep with hheap | ⟨a, new, hheap, hnew⟩
  · exact h.createTime b conn (hheap ▸ hb)
  · rw [hheap] at hb
    by_cases hba : b = a
    · subst hba
      rw [Function.update_self] at hb
      rcases hnew conn hb with hzero | ⟨old, hold, heq⟩
      · exact hzero
      · exact heq.trans (h.createTime b old hold)
    · rw [Function.update_of_ne hba] at hb
      exact h.createTime b conn hb

theorem Dated.conns (h : p.Dated) :
    ∀ a ∈ p.conns, ∃ conn, p.heap a = some conn ∧ conn.createTime = 0 := by
  intro a ha
  obtain ⟨conn, hconn⟩ := h.accounted.owns.exists_of_mem (List.mem_append_left _ ha)
  exact ⟨conn, hconn, h.createTime a conn hconn⟩

/-- What the loop may do, once the clock has reached `m_maxAliveTime`. -/
theorem popEvents_late {l : List Nat} :
    (∀ e ∈ p.popEvents now connected (l.find? connected) (l.takeWhile fun a => !connected a),
        PoolEvent.Allowed p.maxAliveTime p.maxRequest e) ↔
      ∀ a ∈ l.find? connected, p.age a now ≤ p.maxAliveTime.toNat := by
  simp only [popEvents, List.mem_append, List.mem_map, Option.mem_toList]
  constructor
  · intro hall a ha
    exact hall _ (.inl ⟨a, ha, rfl⟩)
  · rintro hfind e (⟨a, ha, rfl⟩ | ⟨a, ha, rfl⟩)
    · exact hfind a ha
    · have hoff : connected a = false := by simpa using List.mem_takeWhile_imp ha
      simp [PoolEvent.Allowed, hoff]

/-- What it may do before that. -/
theorem popEvents_early (h : p.Dated) (hearly : now < p.maxAliveTime.toUInt64) :
    (∀ e ∈ p.popEvents now connected none p.conns,
        PoolEvent.Allowed p.maxAliveTime p.maxRequest e) ↔
      ∀ a ∈ p.conns, connected a = false := by
  simp only [popEvents, List.mem_append, List.mem_map, Option.toList_none, List.map_nil,
    List.not_mem_nil, false_or]
  constructor
  · intro hall a ha
    obtain ⟨conn, hconn, -⟩ := h.conns a ha
    have hallowed := hall _ ⟨a, ha, rfl⟩
    have hage : p.age a now < p.maxAliveTime.toNat := by
      have hlt : now.toNat < p.maxAliveTime.toUInt64.toNat := hearly
      rw [UInt32.toNat_toUInt64] at hlt
      simp only [age]
      omega
    have hlimit := h.accounted.limit a (.inl ha) conn hconn
    simpa [PoolEvent.Allowed, hconn, hage, hlimit] using hallowed
  · rintro hoff e ⟨a, ha, rfl⟩
    simp [PoolEvent.Allowed, hoff a ha]

/-- `getConnection` keeps the age limit exactly when its loop runs in time. -/
theorem ageLimit_pop_iff {made : Option Nat} (h : p.Dated) (hcall : .entered now ∈ p.calls) :
    AgeLimit p (.resume (.entered now) connected made) ↔
      InTime p (.resume (.entered now) connected made) := by
  let p' : HttpConnectionPool := { p with calls := p.calls.erase (.entered now) }
  by_cases hlate : p.maxAliveTime.toUInt64 ≤ now
  · obtain ⟨rest, hpop⟩ := popLoop_late (p := p') connected hlate h.conns
    have hstep : step p (.resume (.entered now) connected made) = some
        (p'.popEvents now connected (p.conns.find? connected)
          (p.conns.takeWhile fun a => !connected a),
        { p' with
          conns := rest
          calls := .popped (p.conns.find? connected)
            (p.conns.takeWhile fun a => !connected a) 0 :: p'.calls }) := by
      rw [HttpConnectionPool.step, if_pos hcall, HttpConnectionPool.resume]
      exact hpop ▸ rfl
    rw [ageLimit_iff_of_step hstep]
    simp only [InTime, if_pos hlate]
    exact popEvents_late
  · have hearly := UInt64.not_le.mp hlate
    have hpop := popLoop_early (p := p') connected hearly h.conns
    have hstep : step p (.resume (.entered now) connected made) = some
        (p'.popEvents now connected none p.conns,
        { p' with conns := [], calls := .popped none p.conns 0 :: p'.calls }) := by
      rw [HttpConnectionPool.step, if_pos hcall, HttpConnectionPool.resume]
      exact hpop ▸ rfl
    rw [ageLimit_iff_of_step hstep]
    simp only [InTime, if_neg hlate]
    exact popEvents_early (p := p) h hearly

/-- What `ReleasePtr` decides. -/
theorem release_events {a : Nat} {conn : HttpConnection} (alive : Bool) (ha : a ∈ p.held)
    (hconn : p.heap a = some conn) (hzero : conn.createTime = 0) :
    ∃ q, step p (.release a alive) = some
      (if alive = true ∧ p.maxAliveTime.toNat < p.clock.toNat ∧
          conn.request + 1 < p.maxRequest.toUInt64 then [.pooled (p.age a p.clock)]
        else [.discarded (p.age a p.clock) alive (conn.request + 1)], q) := by
  have hclock : conn.createTime + p.maxAliveTime.toUInt64 ≥ p.clock ↔
      ¬ p.maxAliveTime.toNat < p.clock.toNat := by
    rw [hzero, UInt64.zero_add, ge_iff_le, UInt64.le_iff_toNat_le, UInt32.toNat_toUInt64, not_lt]
  simp only [HttpConnectionPool.step, if_pos ha, releasePtr, hconn, hclock]
  split
  · rename_i hdrop
    rw [if_neg]
    · exact ⟨_, rfl⟩
    · rintro ⟨halive, hlate, hrequest⟩
      simp [halive, hlate, UInt64.not_le.mpr hrequest] at hdrop
  · rename_i hkeep
    simp only [Bool.or_eq_true, Bool.not_eq_eq_eq_not, Bool.not_true, decide_eq_true_eq, not_or,
      Bool.not_eq_false, not_not] at hkeep
    rw [if_pos ⟨hkeep.1.1, hkeep.1.2, UInt64.not_le.mp hkeep.2⟩]
    exact ⟨_, rfl⟩

/-- `ReleasePtr` keeps it exactly when the connection is dropped in time. -/
theorem ageLimit_release_iff {a : Nat} {alive : Bool} (h : p.Dated) (ha : a ∈ p.held) :
    AgeLimit p (.release a alive) ↔ InTime p (.release a alive) := by
  have hmem : a ∈ p.all := List.mem_append_right _ (List.mem_append_left _ ha)
  obtain ⟨conn, hconn⟩ := h.accounted.owns.exists_of_mem hmem
  have hage : p.age a p.clock ≤ p.clock.toNat := Nat.sub_le _ _
  have hintime : InTime p (.release a alive) ↔
      (alive → conn.request + 1 < p.maxRequest.toUInt64 →
        p.age a p.clock ≤ p.maxAliveTime.toNat ∧
          (p.maxAliveTime.toNat < p.clock.toNat ∨ p.age a p.clock = p.maxAliveTime.toNat)) := by
    simp [InTime, hconn]
  obtain ⟨q, hstep⟩ := release_events alive ha hconn (h.createTime a conn hconn)
  rw [hintime, ageLimit_iff_of_step hstep]
  split
  · rename_i hkeep
    simp [PoolEvent.Allowed, hkeep]
  · rename_i hdrop
    simp only [List.mem_singleton, forall_eq, PoolEvent.Allowed]
    by_cases halive : alive = true <;>
      by_cases hrequest : conn.request + 1 < p.maxRequest.toUInt64
    · simp only [halive, hrequest, true_and, and_true, forall_const] at hdrop ⊢
      omega
    · simp [hrequest]
    · simp [halive]
    · simp [halive]

/-- Only the loop over the pool decides about connections. -/
theorem resume_events {c : Call} {made : Option Nat} {es : List PoolEvent}
    (hc : ∀ now, c ≠ .entered now) (hstep : p.resume connected made c = some (es, q)) :
    es = [] := by
  revert hc hstep
  fun_cases HttpConnectionPool.resume with
  | case1 => exact fun hc => absurd rfl (hc _)
  | case2 => exact fun hc => absurd rfl (hc _)
  | case3 => exact nofun
  | case9 => exact nofun
  | _ =>
      rintro - ⟨⟩
      rfl

/-- One step keeps the age limit exactly when it is made in time. -/
theorem ageLimit_iff (p : HttpConnectionPool) (op : Op) (h : p.Dated) (hdef : (step p op).isSome) :
    AgeLimit p op ↔ InTime p op := by
  cases op with
  | tick now =>
      refine iff_of_true (fun es q hstep => ?_) trivial
      simp only [HttpConnectionPool.step] at hstep
      split at hstep
      · cases hstep
        simp
      · cases hstep
  | getConnection => exact iff_of_true (fun es q hstep => by cases hstep; simp) trivial
  | release a alive =>
      simp only [HttpConnectionPool.step] at hdef
      split at hdef
      · rename_i ha
        exact ageLimit_release_iff h ha
      · simp at hdef
  | resume c connected made =>
      simp only [HttpConnectionPool.step] at hdef
      split at hdef
      · rename_i hc
        cases c with
        | entered now => exact ageLimit_pop_iff h hc
        | _ =>
            refine iff_of_true (fun es q hstep => ?_) trivial
            rw [HttpConnectionPool.step, if_pos hc] at hstep
            simp [resume_events (by simp) hstep]
      · simp at hdef

/-- **Pool age limit.**  A run keeps the age limit in all its steps exactly
when all of them are made in time. -/
theorem age_limit_iff (maxAliveTime maxRequest : UInt32) (now : UInt64) (ops : List Op)
    (es : List (List PoolEvent)) (p : HttpConnectionPool)
    (hrun : Machine.run step (new maxAliveTime maxRequest now) ops = some (es, p)) :
    Machine.Meets step AgeLimit (new maxAliveTime maxRequest now) ops ↔
      Machine.Meets step InTime (new maxAliveTime maxRequest now) ops := by
  have hnew : (new maxAliveTime maxRequest now).Dated := ⟨Accounted.new _ _ now, by simp [new]⟩
  exact Machine.meets_iff_meets ageLimit_iff
    (fun q op es r h _ _ hstep => Dated.step q op es r h hstep) hnew
    (Machine.meets_isSome_of_run hrun)

/-- A connection that is constructed at 5000 and dropped at a later time. -/
def droppedAt (now : UInt64) : List Op :=
  [.getConnection, .resume (.entered 5000) (fun _ => true) none,
    .resume (.popped none [] 0) (fun _ => true) none,
    .resume .connecting (fun _ => true) (some 7), .resume (.created 7) (fun _ => true) none,
    .tick now, .release 7 true]

theorem age_limit_dropped_in_time :
    ∃ es p, Machine.run step (new 1000 100 5000) (droppedAt 5500) = some (es, p) ∧
      Machine.Meets step AgeLimit (new 1000 100 5000) (droppedAt 5500) := by
  have hrun : (Machine.run step (new 1000 100 5000) (droppedAt 5500)).isSome := by
    decide
  have hintime : Machine.Meets step InTime (new 1000 100 5000) (droppedAt 5500) := by
    decide
  obtain ⟨⟨es, p⟩, hp⟩ := Option.isSome_iff_exists.mp hrun
  exact ⟨es, p, hp, (age_limit_iff 1000 100 5000 (droppedAt 5500) es p hp).mpr hintime⟩

/-- Dropped two seconds after its construction, the connection goes back into a
pool that keeps connections for one second. -/
theorem not_age_limit_dropped_late :
    ¬ ∀ ops : List Op, (Machine.run step (new 1000 100 5000) ops).isSome →
      Machine.Meets step AgeLimit (new 1000 100 5000) ops := by
  intro h
  have hlate : ¬ Machine.Meets step AgeLimit (new 1000 100 5000) (droppedAt 7000) := by
    decide
  exact hlate (h (droppedAt 7000) (by decide))

end HttpConnectionPool

end Mingo
